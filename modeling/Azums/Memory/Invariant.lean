import Azums.Memory.Backend

/-!
# `Memory.Invariant` — jobs and lease index agree

`WellFormed` is what every reachable state of the memory backend satisfies: the index of a queue is exactly
the set of keys of its queued jobs, and every stored job's status, lease and dead-letter fields agree.

The operations change a job and the index in separate writes. `WellFormed.setJob` (a job that is not queued
before or after), `WellFormed.requeue`, `WellFormed.dequeue` and `WellFormed.insertQueued` are the four ways in
which an operation moves one job; `Memory.Preservation` takes each operation apart into these moves.
-/

namespace Azums.Memory

open Function (update)

/-! ## The invariant -/

/-- What holds of a stored job on its own. -/
structure JobOk (job : Job) : Prop where
  status : job.status = "queued" ∨ job.status = "running" ∨ Terminal job.status
  lockedAt : job.lockedAt.isSome ↔ job.status = "running"
  lockedBy : job.lockedBy.isSome ↔ job.status = "running"
  lockExpiresAt : job.lockExpiresAt.isSome ↔ job.status = "running"
  dlqReasonCode : job.dlqReasonCode.isSome ↔ job.status = "dlq"
  dlqAt : job.dlqAt.isSome ↔ job.status = "dlq"

/-- `entry` is the key of a queued job of `queue`. -/
def QueuedAs (jobs : Uuid → Option Job) (queue : String) (entry : QueueEntry) : Prop :=
  ∃ job, jobs entry.id = some job ∧ job.queue = queue ∧ job.status = "queued" ∧ entry = QueueEntry.fromJob job

/-- The invariant of `MemoryBackend`'s state. -/
structure WellFormed (s : InnerState) : Prop where
  jobId : ∀ id job, s.jobs id = some job → job.id = id
  jobOk : ∀ id job, s.jobs id = some job → JobOk job
  indexed : ∀ queue entry, entry ∈ s.index queue ↔ QueuedAs s.jobs queue entry
  archived : ∀ id job, s.archive id = some job →
    job.id = id ∧ job.status = "succeeded" ∧ JobOk job ∧ s.jobs id = none

namespace WellFormed

variable {s s' : InnerState}

theorem init : WellFormed InnerState.init where
  jobId := by intro id job h; cases h
  jobOk := by intro id job h; cases h
  indexed := by
    intro queue entry
    constructor
    · intro h; exact absurd h (OrdSet.not_mem_empty entry)
    · rintro ⟨job, h, _⟩; cases h
  archived := by intro id job h; cases h

/-- Only jobs, index and archive matter. -/
theorem congr (h : WellFormed s) (hjobs : s'.jobs = s.jobs) (hqueued : s'.queuedJobs = s.queuedJobs)
    (harchive : s'.archive = s.archive) : WellFormed s' where
  jobId := by rw [hjobs]; exact h.jobId
  jobOk := by rw [hjobs]; exact h.jobOk
  indexed := by
    intro queue entry
    rw [hjobs, InnerState.index, hqueued]
    exact h.indexed queue entry
  archived := by rw [hjobs, harchive]; exact h.archived

theorem setAttempt (h : WellFormed s) (id : Uuid) (att : MemoryAttempt) : WellFormed (s.setAttempt id att) :=
  h.congr rfl rfl rfl

/-! ## Moving one job -/

variable {id : Uuid} {job job' : Job}

/-- A job with the given id is live, so it is not archived. -/
theorem archive_eq_none (h : WellFormed s) (hjob : s.jobs id = some job) : s.archive id = none := by
  cases ha : s.archive id with
  | none => rfl
  | some a =>
      obtain ⟨_, _, _, hnone⟩ := h.archived id a ha
      rw [hnone] at hjob
      cases hjob

/-- The fields other than the index, after a job is stored under an id that is not archived. -/
theorem of_index (h : WellFormed s) (hid : job'.id = id) (hok : JobOk job') (harch : s.archive id = none)
    (hjobs : s'.jobs = update s.jobs id (some job')) (harchive : s'.archive = s.archive)
    (hindex : ∀ queue entry, entry ∈ s'.index queue ↔ QueuedAs s'.jobs queue entry) : WellFormed s' where
  jobId := by
    intro i j hj
    rw [hjobs] at hj
    rcases update_eq_some hj with ⟨rfl, rfl⟩ | ⟨_, hold⟩
    · exact hid
    · exact h.jobId i j hold
  jobOk := by
    intro i j hj
    rw [hjobs] at hj
    rcases update_eq_some hj with ⟨rfl, rfl⟩ | ⟨_, hold⟩
    · exact hok
    · exact h.jobOk i j hold
  indexed := hindex
  archived := by
    intro i j hj
    rw [harchive] at hj
    obtain ⟨h1, h2, h3, h4⟩ := h.archived i j hj
    refine ⟨h1, h2, h3, ?_⟩
    rw [hjobs, Function.update_of_ne, h4]
    rintro rfl
    rw [harch] at hj
    cases hj

/-- What is queued after a job is stored: the job itself if it is queued, and the other jobs as before. -/
theorem queuedAs_update {jobs : Uuid → Option Job} (hid : job'.id = id) {queue : String}
    {entry : QueueEntry} :
    QueuedAs (update jobs id (some job')) queue entry ↔
      (job'.queue = queue ∧ job'.status = "queued" ∧ entry = QueueEntry.fromJob job') ∨
      (entry.id ≠ id ∧ QueuedAs jobs queue entry) := by
  unfold QueuedAs
  by_cases he : entry.id = id
  · rw [he, Function.update_self]
    constructor
    · rintro ⟨j, hj, hrest⟩
      cases hj
      exact Or.inl hrest
    · rintro (hrest | ⟨hne, _⟩)
      · exact ⟨job', rfl, hrest⟩
      · exact absurd rfl hne
  · rw [Function.update_of_ne he]
    constructor
    · intro hq; exact Or.inr ⟨he, hq⟩
    · rintro (⟨_, _, rfl⟩ | ⟨_, hq⟩)
      · exact absurd hid he
      · exact hq

/-- A job that is not queued has no entry. -/
theorem ne_of_not_queued (hjob : s.jobs id = some job) (hnq : job.status ≠ "queued") {queue : String}
    {entry : QueueEntry} (hq : QueuedAs s.jobs queue entry) : entry.id ≠ id := by
  obtain ⟨j, hj, _, hst, _⟩ := hq
  rintro rfl
  rw [hjob] at hj
  cases hj
  exact hnq hst

/-- A change of a job that is not queued, neither before nor after. -/
theorem setJob (h : WellFormed s) (hjob : s.jobs id = some job) (hnq : job.status ≠ "queued")
    (hid : job'.id = id) (hok : JobOk job') (hnq' : job'.status ≠ "queued") :
    WellFormed (s.setJob id job') := by
  refine h.of_index hid hok (h.archive_eq_none hjob) rfl rfl ?_
  intro queue entry
  rw [InnerState.setJob_index, InnerState.setJob_jobs, queuedAs_update hid, h.indexed]
  constructor
  · intro hq
    exact Or.inr ⟨ne_of_not_queued hjob hnq hq, hq⟩
  · rintro (⟨_, hst, _⟩ | ⟨_, hq⟩)
    · exact absurd hst hnq'
    · exact hq

/-- A job put into its queue: it was not queued, and gets the entry of what it becomes. -/
theorem requeue (h : WellFormed s) (hnq : ∀ job, s.jobs id = some job → job.status ≠ "queued")
    (harch : s.archive id = none) (hid : job'.id = id) (hok : JobOk job') (hq' : job'.status = "queued") :
    WellFormed ((s.setJob id job').indexInsert job'.queue (QueueEntry.fromJob job')) := by
  refine h.of_index hid hok harch rfl rfl ?_
  intro queue entry
  rw [InnerState.mem_indexInsert, InnerState.setJob_index, InnerState.indexInsert_jobs,
    InnerState.setJob_jobs, queuedAs_update hid, h.indexed]
  constructor
  · rintro (⟨rfl, rfl⟩ | hq)
    · exact Or.inl ⟨rfl, hq', rfl⟩
    · have hmem := hq
      obtain ⟨j, hj, _⟩ := hmem
      refine Or.inr ⟨?_, hq⟩
      rintro rfl
      exact ne_of_not_queued hj (hnq j hj) hq rfl
  · rintro (⟨rfl, _, rfl⟩ | ⟨_, hq⟩)
    · exact Or.inl ⟨rfl, rfl⟩
    · exact Or.inr hq

/-- A queued job taken out of its queue: its entry goes, and it is stored as something not queued. -/
theorem dequeue (h : WellFormed s) (hjob : s.jobs id = some job) (hid : job'.id = id) (hok : JobOk job')
    (hnq' : job'.status ≠ "queued") :
    WellFormed ((s.indexRemove job.queue [QueueEntry.fromJob job]).setJob id job') := by
  refine h.of_index hid hok (h.archive_eq_none hjob) (by simp) (by simp) ?_
  intro queue entry
  rw [InnerState.setJob_index, InnerState.mem_indexRemove, InnerState.setJob_jobs,
    InnerState.indexRemove_jobs, queuedAs_update hid, h.indexed, List.mem_singleton]
  constructor
  · rintro ⟨hq, hne⟩
    refine Or.inr ⟨?_, hq⟩
    -- an entry with this id is the entry of the job itself
    rintro rfl
    obtain ⟨j, hj, hqueue, _, hentry⟩ := hq
    rw [hjob] at hj
    cases hj
    exact hne ⟨hqueue.symm, hentry⟩
  · rintro (⟨_, hst, _⟩ | ⟨hne, hq⟩)
    · exact absurd hst hnq'
    · refine ⟨hq, ?_⟩
      rintro ⟨_, rfl⟩
      exact hne (h.jobId id job hjob)

/-- A new queued job under an unused id. -/
theorem insertQueued (h : WellFormed s) (hfresh : s.jobs job.id = none) (harch : s.archive job.id = none)
    (hok : JobOk job) (hq : job.status = "queued") : WellFormed (insertQueued s job) := by
  have hmoved : WellFormed ((s.setJob job.id job).indexInsert job.queue (QueueEntry.fromJob job)) := by
    refine h.requeue ?_ harch rfl hok hq
    intro j hj
    rw [hfresh] at hj
    cases hj
  exact hmoved.congr rfl rfl rfl

end WellFormed

/-! ## The moved job is in order again -/

section JobOk

variable {job : Job} {now : DateTime}

theorem JobOk.of_queued (hst : job.status = "queued") (h1 : job.lockedAt = none) (h2 : job.lockedBy = none)
    (h3 : job.lockExpiresAt = none) (h4 : job.dlqReasonCode = none) (h5 : job.dlqAt = none) : JobOk job := by
  constructor <;> simp [hst, h1, h2, h3, h4, h5]

theorem jobOk_newEntity (newId : Uuid) (new : NewJob) : JobOk (newEntity now newId new) :=
  JobOk.of_queued rfl rfl rfl rfl rfl rfl

theorem jobOk_replayEntity (newId jobId : Uuid) (queue : String) (runAt : DateTime) (src : Job) :
    JobOk (replayEntity now newId jobId queue runAt src) :=
  JobOk.of_queued rfl rfl rfl rfl rfl rfl

theorem jobOk_leasedJob (h : JobOk job) (hq : job.status = "queued") (lockExpiresAt : DateTime)
    (workerId : String) : JobOk (leasedJob now lockExpiresAt workerId job) := by
  have h1 := h.dlqReasonCode
  have h2 := h.dlqAt
  rw [hq] at h1 h2
  constructor <;> simp_all [leasedJob]

theorem jobOk_deadlineExceeded (h : JobOk job) (hq : job.status = "queued") :
    JobOk (deadlineExceeded now job) := by
  have h1 := h.lockedAt
  have h2 := h.lockedBy
  have h3 := h.lockExpiresAt
  rw [hq] at h1 h2 h3
  constructor <;> simp_all [deadlineExceeded, Terminal]

theorem jobOk_requeuedJob (h : JobOk job) (hr : job.status = "running") : JobOk (requeuedJob now job) := by
  have h1 := h.dlqReasonCode
  have h2 := h.dlqAt
  rw [hr] at h1 h2
  constructor <;> simp_all [requeuedJob]

/-- `reschedule_for_retry` changes `run_at` too, which no clause of `JobOk` reads. -/
theorem jobOk_runAt (h : JobOk job) (runAt : DateTime) : JobOk { job with runAt := runAt } :=
  ⟨h.status, h.lockedAt, h.lockedBy, h.lockExpiresAt, h.dlqReasonCode, h.dlqAt⟩

theorem jobOk_completedJob (h : JobOk job) (hr : job.status = "running") :
    JobOk (completedJob now job) := by
  have h1 := h.dlqReasonCode
  have h2 := h.dlqAt
  rw [hr] at h1 h2
  constructor <;> simp_all [completedJob, Terminal]

theorem jobOk_deadLetteredJob (reasonCode : String) : JobOk (deadLetteredJob now reasonCode job) := by
  constructor <;> simp [deadLetteredJob, Terminal]

theorem jobOk_cancelledJob (h : JobOk job) (hst : job.status = "queued" ∨ job.status = "running") :
    JobOk (cancelledJob now job) := by
  have h1 := h.dlqReasonCode
  have h2 := h.dlqAt
  rcases hst with hst | hst <;> rw [hst] at h1 h2 <;>
    constructor <;> simp_all [cancelledJob, Terminal]

theorem jobOk_extended (h : JobOk job) (hr : job.status = "running") (t : DateTime) :
    JobOk { job with lockExpiresAt := some t, updatedAt := now } :=
  ⟨h.status, h.lockedAt, h.lockedBy, by simp [hr], h.dlqReasonCode, h.dlqAt⟩

end JobOk

end Azums.Memory
