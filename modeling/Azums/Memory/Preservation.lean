import Azums.Memory.Invariant

/-!
# `Memory.Preservation` — every operation keeps `WellFormed`

Each operation of the backend is one of the moves of `Memory.Invariant`, or a loop of them. A loop's lemma is
an induction over what the loop has still to do: the entries not yet swept are still indexed, the jobs not yet
requeued are still running, the ids a later call would draw are still unused.
-/

namespace Azums.Memory

open Function (update)

/-! ## Enqueue and replay -/

section Operations

variable {s : InnerState} {now : DateTime}

theorem enqueue_wellFormed (h : WellFormed s) {newId : Uuid} (hj : s.jobs newId = none)
    (ha : s.archive newId = none) (order : List Uuid) (job : NewJob) :
    WellFormed (enqueue s now newId order job).2 := by
  unfold enqueue
  cases job.idempotencyKey.bind (findByKey s order) with
  | some existing => exact h
  | none => exact h.insertQueued hj ha (jobOk_newEntity newId job) rfl

theorem replayJob_wellFormed (h : WellFormed s) {newId : Uuid} (hj : s.jobs newId = none)
    (ha : s.archive newId = none) (jobId : Uuid) (overrideQueue : Option String)
    (overrideRunAt : Option DateTime) :
    WellFormed (replayJob s now newId jobId overrideQueue overrideRunAt).2 := by
  unfold replayJob
  cases getJob s jobId with
  | none => exact h
  | some src => exact h.insertQueued hj ha (jobOk_replayEntity newId jobId _ _ src) rfl

/-! ## Leasing -/

/-- An indexed entry belongs to a queued job. -/
theorem WellFormed.job_of_mem (h : WellFormed s) {queue : String} {entry : QueueEntry}
    (he : entry ∈ s.index queue) : ∃ job, s.jobs entry.id = some job ∧ job.id = entry.id ∧
      job.queue = queue ∧ job.status = "queued" ∧ entry = QueueEntry.fromJob job := by
  obtain ⟨job, hjob, hrest⟩ := (h.indexed queue entry).mp he
  exact ⟨job, hjob, h.jobId _ _ hjob, hrest⟩

/-- One round of the sweep takes its entry out and nothing else. -/
theorem sweepEntry_spec (h : WellFormed s) {queue : String} {entry : QueueEntry}
    (he : entry ∈ s.index queue) : WellFormed (sweepEntry now queue s entry) ∧
      ∀ e, e ∈ (sweepEntry now queue s entry).index queue ↔ e ∈ s.index queue ∧ e ≠ entry := by
  obtain ⟨job, hjob, hid, hqueue, hst, hentry⟩ := h.job_of_mem he
  have heq : sweepEntry now queue s entry =
      (s.indexRemove queue [entry]).setJob entry.id (deadlineExceeded now job) := by
    unfold sweepEntry
    simp only [InnerState.indexRemove_jobs, hjob]
  rw [heq]
  constructor
  · rw [hentry, ← hqueue]
    rw [hentry] at hjob
    exact h.dequeue hjob rfl (jobOk_deadlineExceeded (h.jobOk _ _ hjob) hst) (by simp [deadlineExceeded])
  · intro e
    rw [InnerState.setJob_index, InnerState.mem_indexRemove, List.mem_singleton]
    simp

/-- The sweep, by induction over the entries still to be swept: they stay indexed until their round. -/
theorem sweep_foldl_wellFormed {queue : String} (entries : List QueueEntry) :
    ∀ {s : InnerState}, WellFormed s → entries.Nodup → (∀ e ∈ entries, e ∈ s.index queue) →
      WellFormed (entries.foldl (sweepEntry now queue) s) := by
  induction entries with
  | nil => intro s h _ _; exact h
  | cons entry rest ih =>
      intro s h hnd hmem
      obtain ⟨hnotin, hnd⟩ := List.nodup_cons.mp hnd
      obtain ⟨hwf, hindex⟩ := sweepEntry_spec h (hmem entry List.mem_cons_self)
      refine ih hwf hnd ?_
      intro e he
      refine (hindex e).mpr ⟨hmem e (List.mem_cons_of_mem _ he), ?_⟩
      rintro rfl
      exact hnotin he

theorem sweepDeadlines_wellFormed (h : WellFormed s) (queue : String) :
    WellFormed (sweepDeadlines s now queue) := by
  refine sweep_foldl_wellFormed _ h ((s.index queue).nodup.filter _) ?_
  intro e he
  exact (List.mem_filter.mp he).1

/-- Removing entries one after the other. -/
theorem indexRemove_cons (queue : String) (e : QueueEntry) (es : List QueueEntry) :
    s.indexRemove queue (e :: es) = (s.indexRemove queue [e]).indexRemove queue es := by
  unfold InnerState.indexRemove
  cases h : s.queuedJobs queue with
  | none => simp [h]
  | some ix => simp [OrdSet.eraseAll]

/-- Storing a job and removing entries are independent. -/
theorem setJob_indexRemove (id : Uuid) (job : Job) (queue : String) (es : List QueueEntry) :
    (s.indexRemove queue es).setJob id job = (s.setJob id job).indexRemove queue es := by
  unfold InnerState.indexRemove InnerState.setJob
  cases s.queuedJobs queue <;> rfl

/-- The lease loop. The source removes all taken entries before it touches a job; by induction over the
    taken entries, each one is moved as if its entry were removed in its own round. -/
theorem leaseEach_wellFormed {queue workerId : String} {lockExpiresAt : DateTime} (taken : List QueueEntry) :
    ∀ {s : InnerState}, WellFormed s → taken.Nodup → (∀ e ∈ taken, e ∈ s.index queue) →
      WellFormed (leaseEach now lockExpiresAt workerId taken (s.indexRemove queue taken)).2 := by
  induction taken with
  | nil =>
      intro s h _ _
      have hnil : s.indexRemove queue [] = s := by
        unfold InnerState.indexRemove
        cases hq : s.queuedJobs queue with
        | none => rfl
        | some ix =>
            have : update s.queuedJobs queue (some (ix.eraseAll [])) = s.queuedJobs := by
              rw [Function.update_eq_self_iff, hq]; rfl
            simp [this]
      rw [hnil]
      exact h
  | cons entry rest ih =>
      intro s h hnd hmem
      obtain ⟨hnotin, hnd⟩ := List.nodup_cons.mp hnd
      obtain ⟨job, hjob, hid, hqueue, hst, hentry⟩ := h.job_of_mem (hmem entry List.mem_cons_self)
      have hjob' : (s.indexRemove queue (entry :: rest)).jobs entry.id = some job := by simp [hjob]
      unfold leaseEach
      simp only [hjob']
      rw [indexRemove_cons, setJob_indexRemove]
      refine ih ?_ hnd ?_
      · rw [hentry, ← hqueue]
        rw [hentry] at hjob
        exact h.dequeue hjob rfl (jobOk_leasedJob (h.jobOk _ _ hjob) hst _ _) (by simp [leasedJob])
      · intro e he
        rw [InnerState.setJob_index, InnerState.mem_indexRemove]
        refine ⟨hmem e (List.mem_cons_of_mem _ he), ?_⟩
        rintro ⟨_, hin⟩
        rw [List.mem_singleton] at hin
        exact hnotin (hin ▸ he)

theorem leaseJobsBatchWithOrdering_wellFormed (h : WellFormed s) (queue workerId : String)
    (leaseSeconds batchSize : Int) (ordering : QueueOrdering)
    (hp : (leaseJobsBatchWithOrdering s now queue workerId leaseSeconds batchSize ordering).1 ≠ .panic) :
    WellFormed (leaseJobsBatchWithOrdering s now queue workerId leaseSeconds batchSize ordering).2 := by
  have hsweep : WellFormed (sweepDeadlines s now queue) := sweepDeadlines_wellFormed h queue
  revert hp
  unfold leaseJobsBatchWithOrdering
  simp only
  split
  · intro _; exact hsweep
  · cases Chrono.addSeconds now leaseSeconds with
    | none => intro hp; exact absurd rfl hp
    | some lockExpiresAt =>
        intro _
        refine leaseEach_wellFormed _ hsweep ?_ ?_
        · exact ((OrdSet.nodup _).filter _).sublist (List.take_sublist _ _)
        · intro e he
          exact (List.mem_filter.mp (List.mem_of_mem_take he)).1

/-! ## Reaping -/

/-- The requeue loop, by induction over the ids still to be requeued: they stay running until their round. -/
theorem requeueEach_wellFormed (ids : List Uuid) :
    ∀ {s : InnerState}, WellFormed s → ids.Nodup →
      (∀ id ∈ ids, ∃ job, s.jobs id = some job ∧ job.status = "running") →
      WellFormed (requeueEach now ids s).2 := by
  induction ids with
  | nil => intro s h _ _; exact h
  | cons id rest ih =>
      intro s h hnd hrun
      obtain ⟨hnotin, hnd⟩ := List.nodup_cons.mp hnd
      obtain ⟨job, hjob, hst⟩ := hrun id List.mem_cons_self
      unfold requeueEach
      simp only [hjob]
      refine ih ?_ hnd ?_
      · have hid : job.id = id := h.jobId _ _ hjob
        have hok : JobOk (requeuedJob now job) := jobOk_requeuedJob (h.jobOk _ _ hjob) hst
        refine h.requeue ?_ (h.archive_eq_none hjob) hid hok rfl
        intro j hj
        rw [hjob] at hj
        cases hj
        simp [hst]
      · intro i hi
        have hne : i ≠ id := fun he => hnotin (he ▸ hi)
        rw [InnerState.indexInsert_jobs, InnerState.setJob_jobs, Function.update_of_ne hne]
        exact hrun i (List.mem_cons_of_mem _ hi)

/-- The ids of a filtered enumeration of a map whose values carry their keys. -/
theorem mem_map_id_of_order {m : Uuid → Option Job} (hid : ∀ id job, m id = some job → job.id = id)
    {order : List Uuid} {p : Job → Bool} {id : Uuid}
    (h : id ∈ ((order.filterMap m).filter p).map (·.id)) : ∃ job, m id = some job ∧ p job := by
  obtain ⟨job, hjob, rfl⟩ := List.mem_map.mp h
  obtain ⟨hmem, hp⟩ := List.mem_filter.mp hjob
  obtain ⟨k, _, hk⟩ := List.mem_filterMap.mp hmem
  rw [hid k job hk]
  exact ⟨job, hk, hp⟩

/-- The ids of such an enumeration are a sublist of its keys. -/
theorem map_id_sublist_order {m : Uuid → Option Job} (hid : ∀ id job, m id = some job → job.id = id)
    (p : Job → Bool) (order : List Uuid) :
    (((order.filterMap m).filter p).map (·.id)).Sublist order := by
  induction order with
  | nil => exact List.Sublist.slnil
  | cons id rest ih =>
      cases hm : m id with
      | none =>
          rw [List.filterMap_cons_none hm]
          exact ih.cons id
      | some job =>
          rw [List.filterMap_cons_some hm, List.filter_cons]
          cases p job with
          | false => exact ih.cons id
          | true =>
              simp only [if_true, List.map_cons, hid id job hm]
              exact ih.cons_cons id

theorem reapExpiredLocks_wellFormed (h : WellFormed s) {order : List Uuid} (ho : order.Nodup) :
    WellFormed (reapExpiredLocks s now order).2 := by
  unfold reapExpiredLocks
  simp only
  refine requeueEach_wellFormed _ (h.congr rfl rfl rfl) (ho.sublist (map_id_sublist_order h.jobId _ _)) ?_
  intro id hmem
  obtain ⟨job, hjob, hexp⟩ := mem_map_id_of_order h.jobId hmem
  refine ⟨job, hjob, ?_⟩
  simp only [leaseExpired, Bool.and_eq_true, beq_iff_eq] at hexp
  exact hexp.1

/-! ## Acknowledgement

The guard of these operations makes the job a running one; the attempt they close is no part of the
invariant. `rescheduleForRetry_cases`, `markDlq_cases` and `markSucceeded_cases` say all that a call can do; what is
proved of it elsewhere follows from them. -/

/-- The check of `start_attempts_batch`: the job runs under the worker's lease. -/
def Leased (s : InnerState) (workerId : String) (jobId : Uuid) : Prop :=
  ∃ job, s.jobs jobId = some job ∧ job.status = "running" ∧ job.lockedBy = some workerId

/-- The attempt is a running attempt of the job. -/
def HasAttempt (s : InnerState) (attemptId jobId : Uuid) : Prop :=
  ∃ att, s.attempts attemptId = some att ∧ att.status = "running" ∧ att.jobId = jobId

theorem requireLease_ok {jobId : Uuid} {workerId target : String} {job : Job}
    (h : requireLease s jobId workerId target = .ok job) :
    s.jobs jobId = some job ∧ job.status = "running" ∧ job.lockedBy = some workerId := by
  unfold requireLease at h
  cases hj : s.jobs jobId with
  | none => rw [hj] at h; cases h
  | some j =>
      rw [hj] at h
      simp only at h
      split at h
      · cases h
      · rename_i hguard
        cases h
        rw [not_or, not_ne_iff, not_ne_iff] at hguard
        exact ⟨rfl, hguard⟩

theorem requireAttempt_ok {attemptId jobId : Uuid} {verb : String} {att : MemoryAttempt}
    (h : requireAttempt s attemptId jobId verb = .ok att) :
    s.attempts attemptId = some att ∧ att.status = "running" ∧ att.jobId = jobId := by
  unfold requireAttempt at h
  cases ha : s.attempts attemptId with
  | none => rw [ha] at h; cases h
  | some a =>
      rw [ha] at h
      simp only at h
      split at h
      · cases h
      · rename_i hguard
        cases h
        rw [not_or, not_ne_iff, not_ne_iff] at hguard
        exact ⟨rfl, hguard⟩

/-- The guard of the calls on a leased job stops at a stored job that the worker does not hold. -/
theorem not_leased_iff {jobId : Uuid} {job : Job} (hjob : s.jobs jobId = some job) :
    (job.status ≠ "running" ∨ job.lockedBy ≠ some workerId) ↔ ¬Leased s workerId jobId := by
  rw [← not_and_or, not_iff_not]
  constructor
  · intro hheld
    exact ⟨job, hjob, hheld⟩
  · rintro ⟨job', hjob', hheld⟩
    rw [hjob] at hjob'
    cases hjob'
    exact hheld

theorem leased_passes {jobId : Uuid} {job : Job} (h : Leased s workerId jobId) (hjob : s.jobs jobId = some job) :
    ¬(job.status ≠ "running" ∨ job.lockedBy ≠ some workerId) := by
  rw [not_leased_iff hjob, not_not]
  exact h

theorem requireLease_of_leased {jobId : Uuid} (h : Leased s workerId jobId) (target : String) :
    ∃ job, requireLease s jobId workerId target = .ok job := by
  obtain ⟨job, hjob, _⟩ := id h
  refine ⟨job, ?_⟩
  simp only [requireLease, hjob, if_neg (leased_passes h hjob)]

theorem requireAttempt_of_hasAttempt {attemptId jobId : Uuid} (h : HasAttempt s attemptId jobId) (verb : String) :
    ∃ att, requireAttempt s attemptId jobId verb = .ok att := by
  obtain ⟨att, hatt, hst, hj⟩ := h
  have hguard : ¬(att.status ≠ "running" ∨ att.jobId ≠ jobId) := by simp [hst, hj]
  refine ⟨att, ?_⟩
  simp only [requireAttempt, hatt, if_neg hguard]

/-- The two checks, together. -/
theorem checks_cases (s : InnerState) (jobId attemptId : Uuid) (workerId target verb : String) :
    (¬(Leased s workerId jobId ∧ HasAttempt s attemptId jobId) ∧
        ((∃ e, requireLease s jobId workerId target = .error e) ∨
          ∃ job e, requireLease s jobId workerId target = .ok job ∧
            requireAttempt s attemptId jobId verb = .error e)) ∨
      ∃ job att, requireLease s jobId workerId target = .ok job ∧
        requireAttempt s attemptId jobId verb = .ok att := by
  by_cases hl : Leased s workerId jobId
  · obtain ⟨job, hlease⟩ := requireLease_of_leased hl target
    by_cases ha : HasAttempt s attemptId jobId
    · obtain ⟨att, hatt⟩ := requireAttempt_of_hasAttempt ha verb
      exact Or.inr ⟨job, att, hlease, hatt⟩
    · cases hreq : requireAttempt s attemptId jobId verb with
      | error e => exact Or.inl ⟨fun hboth => ha hboth.2, Or.inr ⟨job, e, hlease, rfl⟩⟩
      | ok att => exact absurd ⟨att, requireAttempt_ok hreq⟩ ha
  · cases hreq : requireLease s jobId workerId target with
    | error e => exact Or.inl ⟨fun hboth => hl hboth.1, Or.inl ⟨e, rfl⟩⟩
    | ok job => exact absurd ⟨job, requireLease_ok hreq⟩ hl

/-- What `reschedule_for_retry` can do: refuse, or close the attempt and put the job back into its queue. -/
theorem rescheduleForRetry_cases (s : InnerState) (now : DateTime) (jobId attemptId : Uuid) (workerId : String)
    (latencyMs : Int) (nextRunAt : DateTime) (errorCode errorMessage : String) :
    (¬(Leased s workerId jobId ∧ HasAttempt s attemptId jobId) ∧ ∃ e,
        rescheduleForRetry s now jobId attemptId workerId latencyMs nextRunAt errorCode errorMessage = (.err e, s)) ∨
      ∃ job att, (s.jobs jobId = some job ∧ job.status = "running" ∧ job.lockedBy = some workerId) ∧
        (s.attempts attemptId = some att ∧ att.status = "running" ∧ att.jobId = jobId) ∧
        rescheduleForRetry s now jobId attemptId workerId latencyMs nextRunAt errorCode errorMessage =
          (.ok (), ((s.setAttempt attemptId (failedAttempt now latencyMs errorCode errorMessage att)).setJob jobId
            { requeuedJob now job with runAt := nextRunAt }).indexInsert job.queue
              (QueueEntry.fromJob { requeuedJob now job with runAt := nextRunAt })) := by
  unfold rescheduleForRetry
  rcases checks_cases s jobId attemptId workerId "retry_wait" "fail" with
    ⟨hnot, ⟨e, he⟩ | ⟨job, e, hlease, he⟩⟩ | ⟨job, att, hlease, hreq⟩
  · exact Or.inl ⟨hnot, e, by simp only [he]⟩
  · exact Or.inl ⟨hnot, e, by simp only [hlease, he]⟩
  · exact Or.inr ⟨job, att, requireLease_ok hlease, requireAttempt_ok hreq, by simp only [hlease, hreq]; rfl⟩

/-- What `mark_dlq` can do: refuse, or close the attempt and give the job up. -/
theorem markDlq_cases (s : InnerState) (now : DateTime) (jobId attemptId : Uuid) (workerId : String)
    (latencyMs : Int) (reasonCode errorCode errorMessage : String) :
    (¬(Leased s workerId jobId ∧ HasAttempt s attemptId jobId) ∧ ∃ e,
        markDlq s now jobId attemptId workerId latencyMs reasonCode errorCode errorMessage = (.err e, s)) ∨
      ∃ job att, (s.jobs jobId = some job ∧ job.status = "running" ∧ job.lockedBy = some workerId) ∧
        (s.attempts attemptId = some att ∧ att.status = "running" ∧ att.jobId = jobId) ∧
        markDlq s now jobId attemptId workerId latencyMs reasonCode errorCode errorMessage =
          (.ok (), (s.setAttempt attemptId (failedAttempt now latencyMs errorCode errorMessage att)).setJob jobId
            (deadLetteredJob now reasonCode job)) := by
  unfold markDlq
  rcases checks_cases s jobId attemptId workerId "dlq" "fail" with
    ⟨hnot, ⟨e, he⟩ | ⟨job, e, hlease, he⟩⟩ | ⟨job, att, hlease, hreq⟩
  · exact Or.inl ⟨hnot, e, by simp only [he]⟩
  · exact Or.inl ⟨hnot, e, by simp only [hlease, he]⟩
  · exact Or.inr ⟨job, att, requireLease_ok hlease, requireAttempt_ok hreq, by simp only [hlease, hreq]⟩

/-! ### The loop of `start_attempts_batch` -/

/-- The answer of the rest of the loop, with the attempt of this round in front. -/
def prependAttempt (attempt : Uuid × Uuid × Int) :
    Outcome (List (Uuid × Uuid × Int)) × InnerState → Outcome (List (Uuid × Uuid × Int)) × InnerState
  | (.ok results, s) => (.ok (attempt :: results), s)
  | (.err message, s) => (.err message, s)
  | (.panic, s) => (.panic, s)

section Prepend

variable {attempt : Uuid × Uuid × Int} {r : Outcome (List (Uuid × Uuid × Int)) × InnerState}

@[simp] theorem prependAttempt_snd : (prependAttempt attempt r).2 = r.2 := by
  obtain ⟨outcome, t⟩ := r
  cases outcome <;> rfl

theorem prependAttempt_err {message : String} : (prependAttempt attempt r).1 = .err message ↔ r.1 = .err message := by
  obtain ⟨outcome, t⟩ := r
  cases outcome <;> simp [prependAttempt]

theorem prependAttempt_panic : (prependAttempt attempt r).1 = .panic ↔ r.1 = .panic := by
  obtain ⟨outcome, t⟩ := r
  cases outcome <;> simp [prependAttempt]

theorem prependAttempt_ok {all : List (Uuid × Uuid × Int)} {t : InnerState}
    (h : prependAttempt attempt r = (.ok all, t)) : ∃ results, r = (.ok results, t) ∧ all = attempt :: results := by
  obtain ⟨outcome, t'⟩ := r
  cases outcome with
  | ok results => cases h; exact ⟨results, rfl, rfl⟩
  | err message => cases h
  | panic => cases h

end Prepend

/-- The attempt counter of the job can be raised. -/
def HasRoom (s : InnerState) (jobId : Uuid) : Prop := (s.attemptCounts jobId).getD 0 < 2147483647

instance (s : InnerState) (jobId : Uuid) : Decidable (HasRoom s jobId) := inferInstanceAs (Decidable (_ < _))

/-- An attempt of the job can be started: it passes its check, and its counter can be raised. -/
structure Startable (s : InnerState) (workerId : String) (jobId : Uuid) : Prop where
  leased : Leased s workerId jobId
  room : HasRoom s jobId

/-- One round, for a job that passes its check. -/
theorem startEach_cons (now : DateTime) {jobId : Uuid} (attemptId : Uuid) (rest : List (Uuid × Uuid))
    (h : Startable s workerId jobId) :
    startEach now workerId ((jobId, attemptId) :: rest) s =
      prependAttempt (jobId, attemptId, (s.attemptCounts jobId).getD 0 + 1)
        (startEach now workerId rest
          (recordAttempt s now workerId jobId attemptId ((s.attemptCounts jobId).getD 0 + 1))) := by
  obtain ⟨job, hjob, _⟩ := id h.leased
  have hnext : succI32 ((s.attemptCounts jobId).getD 0) = some ((s.attemptCounts jobId).getD 0 + 1) := if_pos h.room
  rw [startEach]
  simp only [hjob, if_neg (leased_passes h.leased hjob), hnext]
  cases startEach now workerId rest (recordAttempt s now workerId jobId attemptId
    ((s.attemptCounts jobId).getD 0 + 1)) with
  | mk outcome t => cases outcome <;> rfl

/-- One round, for a job that fails its check. -/
theorem startEach_refused (now : DateTime) {jobId : Uuid} (attemptId : Uuid) (rest : List (Uuid × Uuid))
    (h : ¬Leased s workerId jobId) :
    ∃ message, startEach now workerId ((jobId, attemptId) :: rest) s = (.err message, s) := by
  rw [startEach]
  cases hjob : s.jobs jobId with
  | none => exact ⟨_, rfl⟩
  | some job =>
      simp only [if_pos ((not_leased_iff hjob).mpr h)]
      exact ⟨_, rfl⟩

/-- One round, for a job whose counter is at its maximum. -/
theorem startEach_full (now : DateTime) {jobId : Uuid} (attemptId : Uuid) (rest : List (Uuid × Uuid))
    (h : Leased s workerId jobId) (hfull : ¬HasRoom s jobId) :
    startEach now workerId ((jobId, attemptId) :: rest) s = (.panic, s) := by
  obtain ⟨job, hjob, _⟩ := id h
  have hnext : succI32 ((s.attemptCounts jobId).getD 0) = none := if_neg hfull
  rw [startEach]
  simp only [hjob, if_neg (leased_passes h hjob), hnext]

/-- A round that starts no attempt ends the loop. -/
theorem startEach_stops (now : DateTime) {jobId : Uuid} (attemptId : Uuid) (rest : List (Uuid × Uuid))
    (h : ¬Startable s workerId jobId) :
    ∃ outcome, startEach now workerId ((jobId, attemptId) :: rest) s = (outcome, s) ∧
      ∀ results, outcome ≠ .ok results := by
  by_cases hl : Leased s workerId jobId
  · have hfull : ¬HasRoom s jobId := fun hroom => h ⟨hl, hroom⟩
    exact ⟨.panic, startEach_full now attemptId rest hl hfull, by simp⟩
  · obtain ⟨message, hm⟩ := startEach_refused now attemptId rest hl
    exact ⟨.err message, hm, by simp⟩

/-- `start_attempts_batch` touches no job, however far its loop gets. -/
theorem startEach_frame (requests : List (Uuid × Uuid)) :
    ∀ s : InnerState, (startEach now workerId requests s).2.jobs = s.jobs ∧
      (startEach now workerId requests s).2.queuedJobs = s.queuedJobs ∧
      (startEach now workerId requests s).2.archive = s.archive := by
  induction requests with
  | nil => intro s; exact ⟨rfl, rfl, rfl⟩
  | cons request rest ih =>
      intro s
      obtain ⟨jobId, attemptId⟩ := request
      by_cases hl : Startable s workerId jobId
      · rw [startEach_cons now attemptId rest hl, prependAttempt_snd]
        exact ih _
      · obtain ⟨_, hm, _⟩ := startEach_stops now attemptId rest hl
        rw [hm]
        exact ⟨rfl, rfl, rfl⟩

theorem startAttemptsBatch_wellFormed (h : WellFormed s) (requests : List (Uuid × Uuid))
    (workerId : String) : WellFormed (startAttemptsBatch s now requests workerId).2 := by
  obtain ⟨hj, hq, ha⟩ := startEach_frame requests s
  exact h.congr hj hq ha

/-- The next occurrence is a queued job under its own id. -/
theorem nextOccurrence_spec {newId : Uuid} {job next : Job} {interval : Int}
    (h : nextOccurrence now newId job interval = some next) :
    next.id = newId ∧ next.status = "queued" ∧ JobOk next := by
  unfold nextOccurrence at h
  cases hr : Chrono.addSeconds job.runAt interval with
  | none => rw [hr] at h; cases h
  | some nextRunAt =>
      rw [hr] at h
      cases hd : job.deadlineAt with
      | none =>
          rw [hd] at h
          cases h
          exact ⟨rfl, rfl, JobOk.of_queued rfl rfl rfl rfl rfl rfl⟩
      | some deadline =>
          rw [hd] at h
          obtain ⟨d, _, rfl⟩ := Option.map_eq_some_iff.mp h
          exact ⟨rfl, rfl, JobOk.of_queued rfl rfl rfl rfl rfl rfl⟩

theorem recurringJob_spec {newId jobId : Uuid} {next : Job}
    (h : recurringJob s now newId jobId = some (some next)) :
    next.id = newId ∧ next.status = "queued" ∧ JobOk next := by
  unfold recurringJob at h
  cases hj : s.jobs jobId with
  | none => rw [hj] at h; cases h
  | some job =>
      rw [hj] at h
      cases hi : job.recurringIntervalSeconds with
      | none => simp only [hi] at h; cases h
      | some interval =>
          simp only [hi] at h
          obtain ⟨n, hn, heq⟩ := Option.map_eq_some_iff.mp h
          cases heq
          exact nextOccurrence_spec hn

/-- The attempt of a job whose handler succeeded. -/
def succeededAttempt (now : DateTime) (latencyMs : Int) (att : MemoryAttempt) : MemoryAttempt :=
  { att with status := "succeeded", finishedAt := some now, latencyMs := some latencyMs }

/-- The next occurrence is enqueued, if there is one. -/
def insertNext (next : Option Job) (s : InnerState) : InnerState := next.elim s (insertQueued s)

@[simp] theorem insertNext_archive (next : Option Job) : (insertNext next s).archive = s.archive := by
  cases next <;> rfl

@[simp] theorem insertNext_attempts (next : Option Job) : (insertNext next s).attempts = s.attempts := by
  cases next <;> rfl

@[simp] theorem insertNext_attemptCounts (next : Option Job) :
    (insertNext next s).attemptCounts = s.attemptCounts := by
  cases next <;> rfl

/-- It takes the id that the call has drawn, so every other job stays. -/
theorem insertNext_jobs {s₀ : InnerState} {newId jobId : Uuid} {next : Option Job}
    (hrec : recurringJob s₀ now newId jobId = some next) {id : Uuid} (hid : id ≠ newId) :
    (insertNext next s).jobs id = s.jobs id := by
  cases next with
  | none => rfl
  | some next =>
      rw [insertNext, Option.elim_some, insertQueued, InnerState.setJob_jobs, (recurringJob_spec hrec).1,
        Function.update_of_ne hid, InnerState.indexInsert_jobs]

/-- What `mark_succeeded` can do: panic over the next occurrence; refuse; or complete the job together with its
    attempt, and enqueue the next occurrence if there is one. -/
theorem markSucceeded_cases (s : InnerState) (now : DateTime) (newId jobId attemptId : Uuid)
    (workerId : String) (latencyMs : Int) :
    (recurringJob s now newId jobId = none ∧
        markSucceeded s now newId jobId attemptId workerId latencyMs = (.panic, s)) ∨
      (¬(Leased s workerId jobId ∧ HasAttempt s attemptId jobId) ∧ (recurringJob s now newId jobId).isSome ∧
        ∃ e, markSucceeded s now newId jobId attemptId workerId latencyMs = (.err e, s)) ∨
      ∃ next job att, recurringJob s now newId jobId = some next ∧
        (s.jobs jobId = some job ∧ job.status = "running" ∧ job.lockedBy = some workerId) ∧
        (s.attempts attemptId = some att ∧ att.status = "running" ∧ att.jobId = jobId) ∧
        markSucceeded s now newId jobId attemptId workerId latencyMs =
          (.ok (), insertNext next ((s.setAttempt attemptId (succeededAttempt now latencyMs att)).setJob jobId
            (completedJob now job))) := by
  unfold markSucceeded
  cases hrec : recurringJob s now newId jobId with
  | none => exact Or.inl ⟨rfl, rfl⟩
  | some next =>
      rcases checks_cases s jobId attemptId workerId "completed" "complete" with
        ⟨hnot, ⟨e, he⟩ | ⟨job, e, hlease, he⟩⟩ | ⟨job, att, hlease, hreq⟩
      · exact Or.inr (Or.inl ⟨hnot, rfl, e, by simp only [he]⟩)
      · exact Or.inr (Or.inl ⟨hnot, rfl, e, by simp only [hlease, he]⟩)
      · refine Or.inr (Or.inr ⟨next, job, att, rfl, requireLease_ok hlease, requireAttempt_ok hreq, ?_⟩)
        simp only [hlease, hreq]
        cases next <;> rfl

/-- A job whose status is not `queued` after the change, under a running lease before it. -/
theorem WellFormed.settle (h : WellFormed s) {jobId : Uuid} {job : Job} (job' : Job)
    (hjob : s.jobs jobId = some job) (hst : job.status = "running") (hid : job'.id = job.id)
    (hok : JobOk job') (hnq : job'.status ≠ "queued") (attemptId : Uuid) (att : MemoryAttempt) :
    WellFormed ((s.setAttempt attemptId att).setJob jobId job') := by
  refine (h.setAttempt attemptId att).setJob hjob ?_ (hid.trans (h.jobId _ _ hjob)) hok hnq
  simp [hst]

theorem markSucceeded_wellFormed (h : WellFormed s) {newId : Uuid} (hj : s.jobs newId = none)
    (ha : s.archive newId = none) (jobId attemptId : Uuid) (workerId : String) (latencyMs : Int) :
    WellFormed (markSucceeded s now newId jobId attemptId workerId latencyMs).2 := by
  rcases markSucceeded_cases s now newId jobId attemptId workerId latencyMs with
    ⟨_, heq⟩ | ⟨_, _, e, heq⟩ | ⟨next, job, att, hrec, ⟨hjob, hst, _⟩, _, heq⟩
  · rw [heq]
    exact h
  · rw [heq]
    exact h
  · have hset : WellFormed ((s.setAttempt attemptId (succeededAttempt now latencyMs att)).setJob jobId
        (completedJob now job)) :=
      h.settle (completedJob now job) hjob hst rfl (jobOk_completedJob (h.jobOk _ _ hjob) hst)
        (by simp [completedJob]) _ _
    rw [heq]
    cases next with
    | none => exact hset
    | some next =>
        obtain ⟨hid, hq, hok⟩ := recurringJob_spec hrec
        have hne : newId ≠ jobId := by
          rintro rfl
          rw [hj] at hjob
          cases hjob
        refine hset.insertQueued ?_ ?_ hok hq
        · rw [hid, InnerState.setJob_jobs, Function.update_of_ne hne]
          exact hj
        · rw [hid]
          exact ha

/-- A `mark_succeeded` with a fresh id leaves every other fresh id fresh. -/
theorem markSucceeded_fresh {newId id : Uuid} (hne : id ≠ newId) (hj : s.jobs id = none)
    (ha : s.archive id = none) (jobId attemptId : Uuid) (workerId : String) (latencyMs : Int) :
    (markSucceeded s now newId jobId attemptId workerId latencyMs).2.jobs id = none ∧
      (markSucceeded s now newId jobId attemptId workerId latencyMs).2.archive id = none := by
  rcases markSucceeded_cases s now newId jobId attemptId workerId latencyMs with
    ⟨_, heq⟩ | ⟨_, _, e, heq⟩ | ⟨next, job, att, hrec, ⟨hjob, _⟩, _, heq⟩
  · rw [heq]
    exact ⟨hj, ha⟩
  · rw [heq]
    exact ⟨hj, ha⟩
  · have hnj : id ≠ jobId := by
      rintro rfl
      rw [hj] at hjob
      cases hjob
    rw [heq]
    simp only [insertNext_archive]
    rw [insertNext_jobs hrec hne, InnerState.setJob_jobs, Function.update_of_ne hnj]
    exact ⟨hj, ha⟩

/-- **The batch rule.** What each call of a batch keeps, for the updates still to come, is kept however far the batch
    gets. -/
theorem markSucceededBatch_keeps {I : List (DateTime × Uuid × Uuid × Uuid × Int) → InnerState → Prop}
    {workerId : String}
    (hone : ∀ now newId jobId attemptId latencyMs rest t, I ((now, newId, jobId, attemptId, latencyMs) :: rest) t →
      I rest (markSucceeded t now newId jobId attemptId workerId latencyMs).2)
    (updates : List (DateTime × Uuid × Uuid × Uuid × Int)) :
    ∀ t : InnerState, I updates t → ∃ rest, I rest (markSucceededBatch workerId updates t).2 := by
  induction updates with
  | nil => intro t h; exact ⟨[], h⟩
  | cons update rest ih =>
      intro t h
      obtain ⟨now, newId, jobId, attemptId, latencyMs⟩ := update
      have hkept := hone now newId jobId attemptId latencyMs rest t h
      unfold markSucceededBatch
      cases hm : markSucceeded t now newId jobId attemptId workerId latencyMs with
      | mk outcome t' =>
          rw [hm] at hkept
          cases outcome with
          | ok u => exact ih t' hkept
          | err message => exact ⟨rest, hkept⟩
          | panic => exact ⟨rest, hkept⟩

/-- The ids of later calls stay fresh through an earlier one. -/
theorem markSucceeded_fresh_rest {newId : Uuid} {rest : List (DateTime × Uuid × Uuid × Uuid × Int)}
    (hnotin : newId ∉ rest.map (·.2.1)) (hfresh : ∀ u ∈ rest, s.jobs u.2.1 = none ∧ s.archive u.2.1 = none)
    (jobId attemptId : Uuid) (workerId : String) (latencyMs : Int) :
    ∀ u ∈ rest, (markSucceeded s now newId jobId attemptId workerId latencyMs).2.jobs u.2.1 = none ∧
      (markSucceeded s now newId jobId attemptId workerId latencyMs).2.archive u.2.1 = none := by
  intro u hu
  obtain ⟨huj, hua⟩ := hfresh u hu
  refine markSucceeded_fresh ?_ huj hua jobId attemptId workerId latencyMs
  intro he
  exact hnotin (List.mem_map.mpr ⟨u, hu, he⟩)

theorem markSucceededBatch_wellFormed {workerId : String} (updates : List (DateTime × Uuid × Uuid × Uuid × Int))
    (h : WellFormed s) (hnd : (updates.map (·.2.1)).Nodup)
    (hfresh : ∀ u ∈ updates, s.jobs u.2.1 = none ∧ s.archive u.2.1 = none) :
    WellFormed (markSucceededBatch workerId updates s).2 := by
  obtain ⟨_, hwf, _, _⟩ := markSucceededBatch_keeps (I := fun rest t => WellFormed t ∧ (rest.map (·.2.1)).Nodup ∧
    ∀ u ∈ rest, t.jobs u.2.1 = none ∧ t.archive u.2.1 = none) (by
      rintro now newId jobId attemptId latencyMs rest t ⟨hwf, hnd, hfresh⟩
      obtain ⟨hnotin, hnd⟩ := List.nodup_cons.mp hnd
      obtain ⟨hj, ha⟩ := hfresh _ List.mem_cons_self
      exact ⟨markSucceeded_wellFormed hwf hj ha jobId attemptId workerId latencyMs, hnd,
        markSucceeded_fresh_rest hnotin (fun u hu => hfresh u (List.mem_cons_of_mem _ hu)) _ _ _ _⟩) updates s
    ⟨h, hnd, hfresh⟩
  exact hwf

theorem rescheduleForRetry_wellFormed (h : WellFormed s) (jobId attemptId : Uuid) (workerId : String)
    (latencyMs : Int) (nextRunAt : DateTime) (errorCode errorMessage : String) :
    WellFormed
      (rescheduleForRetry s now jobId attemptId workerId latencyMs nextRunAt errorCode errorMessage).2 := by
  rcases rescheduleForRetry_cases s now jobId attemptId workerId latencyMs nextRunAt errorCode errorMessage with
    ⟨_, e, heq⟩ | ⟨job, att, ⟨hjob, hst, _⟩, _, heq⟩
  · rw [heq]
    exact h
  · have hid : job.id = jobId := h.jobId _ _ hjob
    have hok : JobOk { requeuedJob now job with runAt := nextRunAt } :=
      jobOk_runAt (jobOk_requeuedJob (h.jobOk _ _ hjob) hst) _
    rw [heq]
    refine (h.setAttempt attemptId _).requeue ?_ (h.archive_eq_none hjob) hid hok rfl
    intro j hj
    rw [InnerState.setAttempt_jobs, hjob] at hj
    cases hj
    simp [hst]

theorem markDlq_wellFormed (h : WellFormed s) (jobId attemptId : Uuid) (workerId : String)
    (latencyMs : Int) (reasonCode errorCode errorMessage : String) :
    WellFormed (markDlq s now jobId attemptId workerId latencyMs reasonCode errorCode errorMessage).2 := by
  rcases markDlq_cases s now jobId attemptId workerId latencyMs reasonCode errorCode errorMessage with
    ⟨_, e, heq⟩ | ⟨job, att, ⟨hjob, hst, _⟩, _, heq⟩
  · rw [heq]
    exact h
  · rw [heq]
    exact h.settle (deadLetteredJob now reasonCode job) hjob hst rfl (jobOk_deadLetteredJob reasonCode)
      (by simp [deadLetteredJob]) _ _

theorem extendLease_wellFormed (h : WellFormed s) (jobId : Uuid) (workerId : String) (leaseSeconds : Int) :
    WellFormed (extendLease s now jobId workerId leaseSeconds).2 := by
  unfold extendLease
  cases hjob : s.jobs jobId with
  | none => exact h
  | some job =>
      simp only
      split
      · rename_i hrun
        cases Chrono.addSeconds now leaseSeconds with
        | none => exact h
        | some t =>
            have hid : job.id = jobId := h.jobId _ _ hjob
            exact h.setJob hjob (by simp [hrun.1]) hid (jobOk_extended (h.jobOk _ _ hjob) hrun.1 t)
              (by simp [hrun.1])
      · exact h

/-! ## Cancellation -/

theorem cancelJob_wellFormed (h : WellFormed s) (attemptOrder : List Uuid) (jobId : Uuid)
    (workerId : Option String) : WellFormed (cancelJob s now attemptOrder jobId workerId).2 := by
  unfold cancelJob
  cases hjob : s.jobs jobId with
  | none => exact h
  | some job =>
      have hid : job.id = jobId := h.jobId _ _ hjob
      simp only
      cases hcheck : checkCancel jobId job.status job.lockedBy workerId with
      | error e => exact h
      | ok u =>
          have hok := h.jobOk _ _ hjob
          simp only
          rcases checkCancel_ok hcheck with hq | ⟨hr, _⟩
          · have hnr : job.status ≠ "running" := by simp [hq]
            rw [if_pos hq, if_neg hnr]
            rw [← setJob_indexRemove]
            exact h.dequeue hjob hid (jobOk_cancelledJob hok (Or.inl hq)) (by simp [cancelledJob])
          · have hnq : job.status ≠ "queued" := by simp [hr]
            rw [if_neg hnq, if_pos hr]
            have hcancel : ∀ t : InnerState, WellFormed t → t.jobs jobId = some job →
                WellFormed (t.setJob jobId (cancelledJob now job)) := by
              intro t ht htj
              exact ht.setJob htj hnq hid (jobOk_cancelledJob hok (Or.inr hr)) (by simp [cancelledJob])
            cases latestRunningAttempt s attemptOrder jobId with
            | none => exact hcancel s h hjob
            | some att => exact hcancel _ (h.setAttempt att.id _) hjob

/-! ## Archiving -/

/-- A succeeded job moves from `jobs` to `archive`; the index never held it. -/
theorem archiveJob_wellFormed (h : WellFormed s) {id : Uuid}
    (hs : ∀ job, s.jobs id = some job → job.status = "succeeded") : WellFormed (archiveJob s id) := by
  unfold archiveJob
  cases hjob : s.jobs id with
  | none => exact h
  | some job =>
      have hst := hs job hjob
      simp only
      constructor
      · intro i j hj
        by_cases hi : i = id
        · subst hi; simp at hj
        · simp only [Function.update_of_ne hi] at hj
          exact h.jobId i j hj
      · intro i j hj
        by_cases hi : i = id
        · subst hi; simp at hj
        · simp only [Function.update_of_ne hi] at hj
          exact h.jobOk i j hj
      · intro queue entry
        refine (h.indexed queue entry).trans ?_
        simp only [QueuedAs]
        by_cases he : entry.id = id
        · rw [he, Function.update_self, hjob]
          constructor
          · rintro ⟨j, hj, _, hq, _⟩
            cases hj
            rw [hst] at hq
            simp at hq
          · rintro ⟨j, hj, _⟩
            cases hj
        · rw [Function.update_of_ne he]
      · intro i j hj
        by_cases hi : i = id
        · subst hi
          simp only [Function.update_self, Option.some.injEq] at hj ⊢
          subst hj
          exact ⟨h.jobId _ _ hjob, hst, h.jobOk _ _ hjob, trivial⟩
        · simp only [Function.update_of_ne hi] at hj ⊢
          exact h.archived i j hj

theorem archiveJob_jobs (s : InnerState) (id i : Uuid) {job : Job}
    (h : (archiveJob s id).jobs i = some job) : s.jobs i = some job := by
  unfold archiveJob at h
  cases hjob : s.jobs id with
  | none => rw [hjob] at h; exact h
  | some j =>
      rw [hjob] at h
      by_cases hi : i = id
      · subst hi; simp at h
      · simpa only [Function.update_of_ne hi] using h

theorem archive_foldl_wellFormed (ids : List Uuid) :
    ∀ {s : InnerState}, WellFormed s →
      (∀ id ∈ ids, ∀ job, s.jobs id = some job → job.status = "succeeded") →
      WellFormed (ids.foldl archiveJob s) := by
  induction ids with
  | nil => intro s h _; exact h
  | cons id rest ih =>
      intro s h hs
      refine ih (archiveJob_wellFormed h (hs id List.mem_cons_self)) ?_
      intro i hi job hjob
      exact hs i (List.mem_cons_of_mem _ hi) job (archiveJob_jobs s id i hjob)

theorem archiveSucceededOlderThan_wellFormed (h : WellFormed s) (order : List Uuid) (cutoff : DateTime)
    (limit : Int) : WellFormed (archiveSucceededOlderThan s order cutoff limit).2 := by
  refine archive_foldl_wellFormed _ h ?_
  intro id hid job hjob
  have hmem := ((List.take_sublist _ _).map (fun j : Job => j.id)).subset hid
  obtain ⟨j, hj, hp⟩ := mem_map_id_of_order h.jobId hmem
  rw [hjob] at hj
  cases hj
  simp only [Bool.and_eq_true, beq_iff_eq] at hp
  exact hp.1

theorem deleteHistoryForSucceededOlderThan_wellFormed (h : WellFormed s)
    (archiveOrder attemptOrder : List Uuid) (cutoff : DateTime) (limit : Int) :
    WellFormed (deleteHistoryForSucceededOlderThan s archiveOrder attemptOrder cutoff limit).2 :=
  h.congr rfl rfl rfl

end Operations

end Azums.Memory
