import Azums.Memory.Run

/-!
# `Memory.Moves` — what a call can do to a job

Every guarantee about a job over time rests on one question: what can a call make of one entry of the job map?
This module answers it once. `JobMove` lists the changes of a stored job and `JobEntry` those of an entry of the
map; `apply_jobEntry` says that a call that comes back does nothing else, `apply_archive` that it takes nothing out
of the archive.
-/

namespace Azums.Memory

open Function (update)

/-! ## The loops over the job map

Each loop applies one function to the jobs under a list of keys. The functions are idempotent, so it does not
matter whether a key occurs twice. -/

/-- The map `m`, with the entries under the keys `ids` changed by `f`. -/
def mapAt (f : Job → Job) (ids : List Uuid) (m : Uuid → Option Job) : Uuid → Option Job :=
  fun id => if id ∈ ids then (m id).map f else m id

variable {f : Job → Job} {m : Uuid → Option Job} {ids : List Uuid}

@[simp] theorem mapAt_nil : mapAt f [] m = m := by
  funext id
  simp [mapAt]

theorem mapAt_of_mem {id : Uuid} (h : id ∈ ids) : mapAt f ids m id = (m id).map f := if_pos h

theorem mapAt_of_not_mem {id : Uuid} (h : id ∉ ids) : mapAt f ids m id = m id := if_neg h

/-- One round of a loop that finds its job. -/
theorem update_eq_mapAt {id : Uuid} {job : Job} (h : m id = some job) :
    update m id (some (f job)) = mapAt f [id] m := by
  funext i
  by_cases hi : i = id
  · subst hi
    simp [mapAt, h]
  · simp [mapAt, hi]

/-- One round of a loop that finds no job. -/
theorem mapAt_of_none {id : Uuid} (h : m id = none) : mapAt f [id] m = m := by
  funext i
  by_cases hi : i = id
  · subst hi
    simp [mapAt, h]
  · simp [mapAt, hi]

theorem mapAt_cons (hf : ∀ job, f (f job) = f job) (id : Uuid) (ids : List Uuid) :
    mapAt f ids (mapAt f [id] m) = mapAt f (id :: ids) m := by
  funext i
  by_cases hi : i = id <;> by_cases hm : i ∈ ids <;> simp [mapAt, hi, hm]
  · subst hi
    simp [hm, Function.comp_def, hf]
  · subst hi
    simp [hm]

/-- What the loops, and every call that is only about jobs and their index, leave alone. -/
structure OnlyJobs (s s' : InnerState) : Prop where
  archive : s'.archive = s.archive
  attempts : s'.attempts = s.attempts
  attemptCounts : s'.attemptCounts = s.attemptCounts

theorem OnlyJobs.refl (s : InnerState) : OnlyJobs s s := ⟨rfl, rfl, rfl⟩

theorem OnlyJobs.trans {s t u : InnerState} (h : OnlyJobs s t) (h' : OnlyJobs t u) : OnlyJobs s u :=
  ⟨h'.archive.trans h.archive, h'.attempts.trans h.attempts, h'.attemptCounts.trans h.attemptCounts⟩

variable {s : InnerState} {now : DateTime}

theorem onlyJobs_setJob (id : Uuid) (job : Job) : OnlyJobs s (s.setJob id job) := ⟨rfl, rfl, rfl⟩

theorem onlyJobs_indexInsert (queue : String) (e : QueueEntry) : OnlyJobs s (s.indexInsert queue e) :=
  ⟨rfl, rfl, rfl⟩

theorem onlyJobs_indexRemove (queue : String) (es : List QueueEntry) : OnlyJobs s (s.indexRemove queue es) := by
  unfold InnerState.indexRemove
  cases s.queuedJobs queue <;> exact ⟨rfl, rfl, rfl⟩

theorem onlyJobs_insertQueued (s : InnerState) (job : Job) : OnlyJobs s (insertQueued s job) := ⟨rfl, rfl, rfl⟩

/-! The calls that add a job or extend a lease touch nothing else either. -/

theorem enqueue_onlyJobs (s : InnerState) (now : DateTime) (newId : Uuid) (order : List Uuid) (new : NewJob) :
    OnlyJobs s (enqueue s now newId order new).2 := by
  unfold enqueue
  cases new.idempotencyKey.bind (findByKey s order) with
  | some existing => exact .refl s
  | none => exact onlyJobs_insertQueued s _

theorem extendLease_onlyJobs (s : InnerState) (now : DateTime) (jobId : Uuid) (workerId : String)
    (leaseSeconds : Int) : OnlyJobs s (extendLease s now jobId workerId leaseSeconds).2 := by
  unfold extendLease
  cases s.jobs jobId with
  | none => exact .refl s
  | some job =>
      simp only
      split
      · cases Chrono.addSeconds now leaseSeconds with
        | none => exact .refl s
        | some lockExpiresAt => exact onlyJobs_setJob jobId _
      · exact .refl s

theorem replayJob_onlyJobs (s : InnerState) (now : DateTime) (newId jobId : Uuid) (overrideQueue : Option String)
    (overrideRunAt : Option DateTime) :
    OnlyJobs s (replayJob s now newId jobId overrideQueue overrideRunAt).2 := by
  unfold replayJob
  cases getJob s jobId with
  | none => exact .refl s
  | some src => exact onlyJobs_insertQueued s _

theorem deadlineExceeded_deadlineExceeded (job : Job) :
    deadlineExceeded now (deadlineExceeded now job) = deadlineExceeded now job := rfl

theorem leasedJob_leasedJob (lockExpiresAt : DateTime) (workerId : String) (job : Job) :
    leasedJob now lockExpiresAt workerId (leasedJob now lockExpiresAt workerId job) =
      leasedJob now lockExpiresAt workerId job := rfl

theorem requeuedJob_requeuedJob (job : Job) : requeuedJob now (requeuedJob now job) = requeuedJob now job := rfl

/-- The sweep. -/
theorem sweep_jobs (now : DateTime) (queue : String) (entries : List QueueEntry) :
    ∀ s : InnerState, (entries.foldl (sweepEntry now queue) s).jobs =
        mapAt (deadlineExceeded now) (entries.map (·.id)) s.jobs ∧
      OnlyJobs s (entries.foldl (sweepEntry now queue) s) := by
  induction entries with
  | nil => intro s; exact ⟨by simp, OnlyJobs.refl s⟩
  | cons entry rest ih =>
      intro s
      have hround : (sweepEntry now queue s entry).jobs = mapAt (deadlineExceeded now) [entry.id] s.jobs ∧
          OnlyJobs s (sweepEntry now queue s entry) := by
        unfold sweepEntry
        simp only [InnerState.indexRemove_jobs]
        cases hjob : s.jobs entry.id with
        | none =>
            refine ⟨?_, onlyJobs_indexRemove _ _⟩
            rw [mapAt_of_none hjob]
            exact InnerState.indexRemove_jobs _ _
        | some job =>
            refine ⟨?_, (onlyJobs_indexRemove _ _).trans (onlyJobs_setJob _ _)⟩
            rw [InnerState.setJob_jobs, InnerState.indexRemove_jobs, update_eq_mapAt hjob]
      obtain ⟨hjobs, honly⟩ := ih (sweepEntry now queue s entry)
      refine ⟨?_, hround.2.trans honly⟩
      rw [List.foldl_cons, hjobs, hround.1, List.map_cons]
      exact mapAt_cons deadlineExceeded_deadlineExceeded _ _

/-- The lease loop. -/
theorem leaseEach_jobs (now lockExpiresAt : DateTime) (workerId : String) (taken : List QueueEntry) :
    ∀ s : InnerState, (leaseEach now lockExpiresAt workerId taken s).2.jobs =
        mapAt (leasedJob now lockExpiresAt workerId) (taken.map (·.id)) s.jobs ∧
      OnlyJobs s (leaseEach now lockExpiresAt workerId taken s).2 := by
  induction taken with
  | nil => intro s; exact ⟨by simp [leaseEach], OnlyJobs.refl s⟩
  | cons entry rest ih =>
      intro s
      unfold leaseEach
      rw [List.map_cons, ← mapAt_cons (leasedJob_leasedJob lockExpiresAt workerId)]
      cases hjob : s.jobs entry.id with
      | none =>
          rw [mapAt_of_none hjob]
          exact ih s
      | some job =>
          obtain ⟨hjobs, honly⟩ := ih (s.setJob entry.id (leasedJob now lockExpiresAt workerId job))
          refine ⟨?_, (onlyJobs_setJob _ _).trans honly⟩
          show (leaseEach now lockExpiresAt workerId rest _).2.jobs = _
          rw [hjobs, InnerState.setJob_jobs, update_eq_mapAt hjob]

/-- The jobs that the lease loop hands out. -/
theorem leaseEach_leased (now lockExpiresAt : DateTime) (workerId : String) (taken : List QueueEntry) :
    ∀ s : InnerState, (leaseEach now lockExpiresAt workerId taken s).1 =
      taken.filterMap (fun entry => (s.jobs entry.id).map (leasedJob now lockExpiresAt workerId)) := by
  induction taken with
  | nil => intro s; rfl
  | cons entry rest ih =>
      intro s
      unfold leaseEach
      cases hjob : s.jobs entry.id with
      | none =>
          rw [List.filterMap_cons_none (by rw [hjob]; rfl)]
          exact ih s
      | some job =>
          rw [List.filterMap_cons_some (by rw [hjob]; rfl)]
          show leasedJob now lockExpiresAt workerId job :: (leaseEach now lockExpiresAt workerId rest _).1 = _
          rw [ih]
          refine congrArg _ (List.filterMap_congr fun e _ => ?_)
          -- the job just leased would be leased to the same once more
          by_cases he : e.id = entry.id
          · rw [he, InnerState.setJob_jobs, Function.update_self, hjob]
            rfl
          · rw [InnerState.setJob_jobs, Function.update_of_ne he]

/-- The requeue loop. -/
theorem requeueEach_jobs (ids : List Uuid) :
    ∀ s : InnerState, (requeueEach now ids s).2.jobs = mapAt (requeuedJob now) ids s.jobs ∧
      OnlyJobs s (requeueEach now ids s).2 := by
  induction ids with
  | nil => intro s; exact ⟨by simp [requeueEach], OnlyJobs.refl s⟩
  | cons id rest ih =>
      intro s
      unfold requeueEach
      rw [← mapAt_cons requeuedJob_requeuedJob]
      cases hjob : s.jobs id with
      | none =>
          rw [mapAt_of_none hjob]
          exact ih s
      | some job =>
          obtain ⟨hjobs, honly⟩ := ih ((s.setJob id (requeuedJob now job)).indexInsert (requeuedJob now job).queue
            (QueueEntry.fromJob (requeuedJob now job)))
          refine ⟨?_, ((onlyJobs_setJob _ _).trans (onlyJobs_indexInsert _ _)).trans honly⟩
          show (requeueEach now rest _).2.jobs = _
          rw [hjobs, InnerState.indexInsert_jobs, InnerState.setJob_jobs, update_eq_mapAt hjob]

/-- It counts the jobs it finds. -/
theorem requeueEach_count (ids : List Uuid) :
    ∀ s : InnerState, (∀ id ∈ ids, (s.jobs id).isSome) → (requeueEach now ids s).1 = ids.length := by
  induction ids with
  | nil => intro s _; rfl
  | cons id rest ih =>
      intro s hall
      unfold requeueEach
      obtain ⟨job, hjob⟩ := Option.isSome_iff_exists.mp (hall id List.mem_cons_self)
      simp only [hjob, List.length_cons]
      refine congrArg (· + 1) (ih _ fun id' hid' => ?_)
      rw [InnerState.indexInsert_jobs, InnerState.setJob_jobs]
      by_cases heq : id' = id
      · rw [heq, Function.update_self]
        rfl
      · rw [Function.update_of_ne heq]
        exact hall id' (List.mem_cons_of_mem _ hid')

/-! ## Jobs -/

/-- What one call may make of a stored job. -/
inductive JobMove : MemOp → Job → Job → Prop where
  | keep {op : MemOp} {job : Job} : JobMove op job job
  | missDeadline {now d : DateTime} {queue workerId : String} {leaseSeconds batchSize : Int}
      {ordering : QueueOrdering} {job : Job} :
      job.status = "queued" → job.runAt ≤ now → job.deadlineAt = some d → d < now →
      JobMove (.lease now queue workerId leaseSeconds batchSize ordering) job (deadlineExceeded now job)
  | lease {now lockExpiresAt : DateTime} {queue workerId : String} {leaseSeconds batchSize : Int}
      {ordering : QueueOrdering} {job : Job} :
      job.status = "queued" → job.runAt ≤ now →
      JobMove (.lease now queue workerId leaseSeconds batchSize ordering) job
        (leasedJob now lockExpiresAt workerId job)
  | reap {now : DateTime} {order : List Uuid} {job : Job} :
      leaseExpired now job = true → JobMove (.reap now order) job (requeuedJob now job)
  | succeed {now : DateTime} {newId jobId attemptId : Uuid} {workerId : String} {latencyMs : Int} {job : Job} :
      job.status = "running" → job.id = jobId →
      JobMove (.markSucceeded now newId jobId attemptId workerId latencyMs) job (completedJob now job)
  | succeedBatch {now : DateTime} {updates : List (DateTime × Uuid × Uuid × Uuid × Int)} {workerId : String}
      {job : Job} :
      job.status = "running" → JobMove (.markSucceededBatch updates workerId) job (completedJob now job)
  | retry {now nextRunAt : DateTime} {jobId attemptId : Uuid} {workerId errorCode errorMessage : String}
      {latencyMs : Int} {job : Job} :
      job.status = "running" → job.id = jobId →
      JobMove (.reschedule now jobId attemptId workerId latencyMs nextRunAt errorCode errorMessage) job
        { requeuedJob now job with runAt := nextRunAt }
  | deadLetter {now : DateTime} {jobId attemptId : Uuid} {workerId reasonCode errorCode errorMessage : String}
      {latencyMs : Int} {job : Job} :
      job.status = "running" → job.id = jobId →
      JobMove (.markDlq now jobId attemptId workerId latencyMs reasonCode errorCode errorMessage) job
        (deadLetteredJob now reasonCode job)
  | extend {now lockExpiresAt : DateTime} {jobId : Uuid} {workerId : String} {leaseSeconds : Int} {job : Job} :
      job.status = "running" → job.id = jobId →
      JobMove (.extendLease now jobId workerId leaseSeconds) job
        { job with lockExpiresAt := some lockExpiresAt, updatedAt := now }
  | cancel {now : DateTime} {attemptOrder : List Uuid} {jobId : Uuid} {workerId : Option String} {job : Job} :
      job.status = "queued" ∨ job.status = "running" → job.id = jobId →
      JobMove (.cancel now attemptOrder jobId workerId) job (cancelledJob now job)

/-- No change touches the retry budget. -/
theorem JobMove.maxAttempts {op : MemOp} {job job' : Job} (h : JobMove op job job') :
    job'.maxAttempts = job.maxAttempts := by
  cases h <;> rfl

/-- What one call may make of the entry of the job map under `id`. -/
inductive JobEntry (op : MemOp) (s s' : InnerState) (id : Uuid) : Prop where
  | stored {job job' : Job} (before : s.jobs id = some job) (after : s'.jobs id = some job')
      (move : JobMove op job job') : JobEntry op s s' id
  | absent (before : s.jobs id = none) (after : s'.jobs id = none) : JobEntry op s s' id
  | archived {job : Job} (before : s.jobs id = some job) (status : job.status = "succeeded")
      (after : s'.jobs id = none) (kept : s'.archive id = some job) : JobEntry op s s' id
  | added {job : Job} (unused : Unused s id) (after : s'.jobs id = some job) (queued : job.status = "queued") :
      JobEntry op s s' id

section JobEntry

variable {op : MemOp} {s' : InnerState} {id : Uuid}

/-- An entry the call does not touch. -/
theorem JobEntry.of_eq (h : s'.jobs id = s.jobs id) : JobEntry op s s' id := by
  cases hjob : s.jobs id with
  | none => exact .absent hjob (h.trans hjob)
  | some job => exact .stored hjob (h.trans hjob) .keep

/-- A call that writes one stored job. -/
theorem JobEntry.of_update {jobId : Uuid} {job job' : Job} (hjob : s.jobs jobId = some job)
    (hmove : JobMove op job job') (hjobs : s'.jobs = update s.jobs jobId (some job')) (id : Uuid) :
    JobEntry op s s' id := by
  by_cases hid : id = jobId
  · subst hid
    exact .stored hjob (by rw [hjobs, Function.update_self]) hmove
  · exact .of_eq (by rw [hjobs, Function.update_of_ne hid])

/-- A change afterwards that leaves the entry alone. -/
theorem JobEntry.frame {t : InnerState} (h : JobEntry op s t id) (hjobs : s'.jobs id = t.jobs id)
    (harch : s'.archive id = t.archive id) : JobEntry op s s' id := by
  cases h with
  | stored before after move => exact .stored before (hjobs.trans after) move
  | absent before after => exact .absent before (hjobs.trans after)
  | archived before status after kept => exact .archived before status (hjobs.trans after) (harch.trans kept)
  | added unused after queued => exact .added unused (hjobs.trans after) queued

/-- A queued job added afterwards under an id that was unused before the call. -/
theorem JobEntry.insertQueued {t : InnerState} {job : Job} (h : JobEntry op s t id) (hfresh : Unused s job.id)
    (hq : job.status = "queued") : JobEntry op s (insertQueued t job) id := by
  by_cases hid : id = job.id
  · subst hid
    exact .added hfresh (Function.update_self ..) hq
  · exact h.frame (Function.update_of_ne hid ..) rfl

end JobEntry

/-! ### One operation at a time -/

/-- What a lease makes of the job map. -/
theorem lease_jobs (queue workerId : String) (leaseSeconds batchSize : Int) (ordering : QueueOrdering)
    (hp : (leaseJobsBatchWithOrdering s now queue workerId leaseSeconds batchSize ordering).1 ≠ .panic) :
    ∃ t, (candidates (sweepDeadlines s now queue) now queue batchSize = [] ∨
        Chrono.addSeconds now leaseSeconds = some t) ∧
      (leaseJobsBatchWithOrdering s now queue workerId leaseSeconds batchSize ordering).2.jobs =
        mapAt (leasedJob now t workerId)
          ((candidates (sweepDeadlines s now queue) now queue batchSize).map (·.id))
          (mapAt (deadlineExceeded now) ((expiredDeadlines s now queue).map (·.id)) s.jobs) ∧
      OnlyJobs s (leaseJobsBatchWithOrdering s now queue workerId leaseSeconds batchSize ordering).2 := by
  obtain ⟨hsweep, honly⟩ := sweep_jobs now queue (expiredDeadlines s now queue) s
  revert hp
  unfold leaseJobsBatchWithOrdering
  simp only
  split
  · -- no candidate: only the sweep has written
    rename_i hempty
    intro _
    have hnil := List.isEmpty_iff.mp hempty
    refine ⟨now, Or.inl hnil, ?_, honly⟩
    rw [hnil, List.map_nil, mapAt_nil]
    exact hsweep
  · cases hadd : Chrono.addSeconds now leaseSeconds with
    | none => intro hp; exact absurd rfl hp
    | some t =>
        intro _
        obtain ⟨hjobs, hrest⟩ := leaseEach_jobs now t workerId
          (candidates (sweepDeadlines s now queue) now queue batchSize)
          ((sweepDeadlines s now queue).indexRemove queue
            (candidates (sweepDeadlines s now queue) now queue batchSize))
        refine ⟨t, Or.inr rfl, ?_, (honly.trans (onlyJobs_indexRemove _ _)).trans hrest⟩
        rw [hjobs, InnerState.indexRemove_jobs]
        exact congrArg _ hsweep

/-- What a lease hands out. -/
theorem lease_leased {s' : InnerState} {queue workerId : String} {leaseSeconds batchSize : Int}
    {ordering : QueueOrdering} {leased : List Job}
    (hret : leaseJobsBatchWithOrdering s now queue workerId leaseSeconds batchSize ordering = (.ok leased, s')) :
    ∃ t, (candidates (sweepDeadlines s now queue) now queue batchSize = [] ∨
        Chrono.addSeconds now leaseSeconds = some t) ∧
      leased = (candidates (sweepDeadlines s now queue) now queue batchSize).filterMap
        (fun entry => ((sweepDeadlines s now queue).jobs entry.id).map (leasedJob now t workerId)) := by
  unfold leaseJobsBatchWithOrdering at hret
  simp only at hret
  split at hret
  · rename_i hempty
    have hnil := List.isEmpty_iff.mp hempty
    cases hret
    exact ⟨now, Or.inl hnil, by rw [hnil]; rfl⟩
  · cases hadd : Chrono.addSeconds now leaseSeconds with
    | none => rw [hadd] at hret; cases hret
    | some t =>
        rw [hadd] at hret
        cases hret
        refine ⟨t, Or.inr rfl, ?_⟩
        rw [leaseEach_leased]
        refine List.filterMap_congr fun entry _ => ?_
        rw [InnerState.indexRemove_jobs]

/-- The jobs the sweep of a lease takes out of a queue: queued, due, and past their deadline. -/
theorem mem_expiredDeadlines (h : WellFormed s) {queue : String} {id : Uuid} :
    id ∈ (expiredDeadlines s now queue).map (·.id) ↔ ∃ job d, s.jobs id = some job ∧ job.queue = queue ∧
      job.status = "queued" ∧ job.runAt ≤ now ∧ job.deadlineAt = some d ∧ d < now := by
  constructor
  · intro hmem
    obtain ⟨entry, hentry, rfl⟩ := List.mem_map.mp hmem
    obtain ⟨hin, hdue⟩ := List.mem_filter.mp hentry
    obtain ⟨job, hjob, hid, hqueue, hst, heq⟩ := h.job_of_mem hin
    rw [Bool.and_eq_true, decide_eq_true_eq, hjob, Option.bind_some, Option.any_eq_true] at hdue
    obtain ⟨hrun, d, hd, hlt⟩ := hdue
    rw [heq, QueueEntry.fromJob_runAt] at hrun
    exact ⟨job, d, hjob, hqueue, hst, hrun, hd, of_decide_eq_true hlt⟩
  · rintro ⟨job, d, hjob, hqueue, hst, hrun, hd, hlt⟩
    have hid : job.id = id := h.jobId _ _ hjob
    refine List.mem_map.mpr ⟨QueueEntry.fromJob job, List.mem_filter.mpr ⟨?_, ?_⟩, hid⟩
    · subst hid
      exact (h.indexed _ _).mpr ⟨job, hjob, hqueue, hst, rfl⟩
    · rw [Bool.and_eq_true, decide_eq_true_eq, QueueEntry.fromJob_id, hid, hjob, Option.bind_some,
        Option.any_eq_true]
      exact ⟨hrun, d, hd, decide_eq_true hlt⟩

/-- A candidate of a lease is a queued and due job. -/
theorem mem_candidates (h : WellFormed s) {queue : String} {batchSize : Int} {id : Uuid}
    (hmem : id ∈ (candidates s now queue batchSize).map (·.id)) :
    ∃ job, s.jobs id = some job ∧ job.queue = queue ∧ job.status = "queued" ∧ job.runAt ≤ now := by
  obtain ⟨entry, hentry, rfl⟩ := List.mem_map.mp hmem
  obtain ⟨hin, hdue⟩ := List.mem_filter.mp (List.mem_of_mem_take hentry)
  obtain ⟨job, hjob, _, hqueue, hst, heq⟩ := h.job_of_mem hin
  rw [decide_eq_true_eq, heq, QueueEntry.fromJob_runAt] at hdue
  exact ⟨job, hjob, hqueue, hst, hdue⟩

/-- A candidate was queued before the sweep as well. -/
theorem candidate_before (h : WellFormed s) {queue : String} {batchSize : Int} {id : Uuid} {job : Job}
    (hmem : id ∈ (candidates (sweepDeadlines s now queue) now queue batchSize).map (·.id))
    (hjob : (sweepDeadlines s now queue).jobs id = some job) :
    id ∉ (expiredDeadlines s now queue).map (·.id) ∧ s.jobs id = some job ∧ job.queue = queue ∧
      job.status = "queued" ∧ job.runAt ≤ now := by
  have hsweep := (sweep_jobs now queue (expiredDeadlines s now queue) s).1
  obtain ⟨job', hjob', hqueue, hst, hrun⟩ := mem_candidates (sweepDeadlines_wellFormed h queue) hmem
  rw [hjob] at hjob'
  cases hjob'
  have hnot : id ∉ (expiredDeadlines s now queue).map (·.id) := by
    intro hin
    rw [sweepDeadlines, hsweep, mapAt_of_mem hin, Option.map_eq_some_iff] at hjob
    obtain ⟨j, _, rfl⟩ := hjob
    exact absurd hst (by simp [deadlineExceeded])
  rw [sweepDeadlines, hsweep, mapAt_of_not_mem hnot] at hjob
  exact ⟨hnot, hjob, hqueue, hst, hrun⟩

/-- A leased job was queued. -/
theorem leased_before (h : WellFormed s) {s' : InnerState} {queue workerId : String} {leaseSeconds batchSize : Int}
    {ordering : QueueOrdering} {leased : List Job}
    (hret : leaseJobsBatchWithOrdering s now queue workerId leaseSeconds batchSize ordering = (.ok leased, s'))
    {job : Job} (hmem : job ∈ leased) :
    ∃ t before, s.jobs job.id = some before ∧ before.status = "queued" ∧ job = leasedJob now t workerId before := by
  obtain ⟨t, _, rfl⟩ := lease_leased hret
  obtain ⟨entry, hentry, heq⟩ := List.mem_filterMap.mp hmem
  obtain ⟨before, hbefore, rfl⟩ := Option.map_eq_some_iff.mp heq
  obtain ⟨_, hjob, _, hst, _⟩ := candidate_before h (List.mem_map.mpr ⟨entry, hentry, rfl⟩) hbefore
  refine ⟨t, before, ?_, hst, rfl⟩
  show s.jobs before.id = _
  rw [h.jobId _ _ hjob]
  exact hjob

theorem lease_jobEntry (h : WellFormed s) (queue workerId : String) (leaseSeconds batchSize : Int)
    (ordering : QueueOrdering)
    (hp : (leaseJobsBatchWithOrdering s now queue workerId leaseSeconds batchSize ordering).1 ≠ .panic)
    (id : Uuid) : JobEntry (.lease now queue workerId leaseSeconds batchSize ordering) s
      (leaseJobsBatchWithOrdering s now queue workerId leaseSeconds batchSize ordering).2 id := by
  obtain ⟨t, _, hjobs, _⟩ := lease_jobs queue workerId leaseSeconds batchSize ordering hp
  by_cases htaken : id ∈ (candidates (sweepDeadlines s now queue) now queue batchSize).map (·.id)
  · obtain ⟨job, hswept, _⟩ := mem_candidates (sweepDeadlines_wellFormed h queue) htaken
    obtain ⟨hnot, hjob, _, hst, hrun⟩ := candidate_before h htaken hswept
    have hmove : JobMove (.lease now queue workerId leaseSeconds batchSize ordering) job
        (leasedJob now t workerId job) := .lease hst hrun
    refine .stored hjob ?_ hmove
    rw [hjobs, mapAt_of_mem htaken, mapAt_of_not_mem hnot, hjob, Option.map_some]
  · by_cases hin : id ∈ (expiredDeadlines s now queue).map (·.id)
    · obtain ⟨job, d, hjob, _, hst, hrun, hd, hlt⟩ := (mem_expiredDeadlines h).mp hin
      refine .stored hjob ?_ (.missDeadline hst hrun hd hlt)
      rw [hjobs, mapAt_of_not_mem htaken, mapAt_of_mem hin, hjob, Option.map_some]
    · refine .of_eq ?_
      rw [hjobs, mapAt_of_not_mem htaken, mapAt_of_not_mem hin]

/-- The jobs the reaper finds: the running ones whose lease has run out. -/
theorem mem_expired (h : WellFormed s) {order : List Uuid} (ho : Enumerates s.jobs order) {id : Uuid} :
    id ∈ ((order.filterMap s.jobs).filter (leaseExpired now)).map (·.id) ↔
      ∃ job, s.jobs id = some job ∧ leaseExpired now job = true := by
  constructor
  · exact mem_map_id_of_order h.jobId
  · rintro ⟨job, hjob, hexp⟩
    refine List.mem_map.mpr ⟨job, List.mem_filter.mpr ⟨List.mem_filterMap.mpr ⟨id, ?_, hjob⟩, hexp⟩,
      h.jobId _ _ hjob⟩
    rw [ho.complete, hjob, Option.isSome_some]

/-- What a reap makes of the job map. -/
theorem reap_jobs (s : InnerState) (now : DateTime) (order : List Uuid) :
    (reapExpiredLocks s now order).2.jobs = mapAt (requeuedJob now)
        (((order.filterMap s.jobs).filter (leaseExpired now)).map (·.id)) s.jobs ∧
      OnlyJobs (closeAttempts now (((order.filterMap s.jobs).filter (leaseExpired now)).map (·.id)) s)
        (reapExpiredLocks s now order).2 :=
  requeueEach_jobs _ _

theorem reap_jobEntry (h : WellFormed s) {order : List Uuid} (ho : Enumerates s.jobs order) (id : Uuid) :
    JobEntry (.reap now order) s (reapExpiredLocks s now order).2 id := by
  have hjobs := (reap_jobs s now order).1
  by_cases hin : id ∈ ((order.filterMap s.jobs).filter (leaseExpired now)).map (·.id)
  · obtain ⟨job, hjob, hexp⟩ := (mem_expired h ho).mp hin
    refine .stored hjob ?_ (.reap hexp)
    rw [hjobs, mapAt_of_mem hin, hjob, Option.map_some]
  · exact .of_eq (by rw [hjobs, mapAt_of_not_mem hin])

/-- The calls that never make a job run. -/
def NeverStarts (op : MemOp) : Prop :=
  ∀ job job' : Job, JobMove op job job' → job'.status = "running" → job = job'

/-- Such a call has not yet touched the jobs that still run. -/
theorem JobEntry.running_before {op : MemOp} {t : InnerState} {id : Uuid} {job : Job} (h : JobEntry op s t id)
    (hnever : NeverStarts op) (hjob : t.jobs id = some job) (hst : job.status = "running") :
    s.jobs id = some job := by
  cases h with
  | stored before after move =>
      rw [hjob] at after
      cases after
      rw [before, hnever _ _ move hst]
  | absent before after => rw [hjob] at after; cases after
  | archived before status after kept => rw [hjob] at after; cases after
  | added unused after queued =>
      rw [hjob] at after
      cases after
      rw [hst] at queued
      simp at queued

theorem neverStarts_markSucceeded (newId jobId attemptId : Uuid) (workerId : String) (latencyMs : Int) :
    NeverStarts (.markSucceeded now newId jobId attemptId workerId latencyMs) := by
  intro job job' hmove hst
  cases hmove with
  | keep => rfl
  | succeed hrun _ => exact absurd hst (by simp [completedJob])

theorem neverStarts_markSucceededBatch (updates : List (DateTime × Uuid × Uuid × Uuid × Int))
    (workerId : String) : NeverStarts (.markSucceededBatch updates workerId) := by
  intro job job' hmove hst
  cases hmove with
  | keep => rfl
  | succeedBatch hrun => exact absurd hst (by simp [completedJob])

/-- One `mark_succeeded` as the last step so far of the call `op`, which began in `s`. -/
theorem JobEntry.markSucceeded {op : MemOp} {t : InnerState} {newId : Uuid} (h : ∀ id, JobEntry op s t id)
    {jobId : Uuid} (hmove : ∀ job : Job, s.jobs jobId = some job → job.status = "running" →
      JobMove op job (completedJob now job))
    (hnever : NeverStarts op) (hfresh : Unused s newId) (attemptId : Uuid) (workerId : String)
    (latencyMs : Int) (id : Uuid) :
    JobEntry op s (markSucceeded t now newId jobId attemptId workerId latencyMs).2 id := by
  have hdone : ∀ job att, t.jobs jobId = some job → job.status = "running" →
      JobEntry op s ((t.setAttempt attemptId att).setJob jobId (completedJob now job)) id := by
    intro job att hjob hst
    by_cases hid : id = jobId
    · subst hid
      have hbefore := (h id).running_before hnever hjob hst
      exact .stored hbefore (Function.update_self ..) (hmove job hbefore hst)
    · exact (h id).frame (Function.update_of_ne hid ..) rfl
  rcases markSucceeded_cases t now newId jobId attemptId workerId latencyMs with
    ⟨_, heq⟩ | ⟨_, _, e, heq⟩ | ⟨next, job, att, hrec, ⟨hjob, hst, _⟩, _, heq⟩
  · rw [heq]
    exact h id
  · rw [heq]
    exact h id
  · rw [heq]
    cases next with
    | none => exact hdone job _ hjob hst
    | some next =>
        obtain ⟨hid, hq, _⟩ := recurringJob_spec hrec
        exact (hdone job _ hjob hst).insertQueued (by rw [hid]; exact hfresh) hq

theorem markSucceeded_jobEntry (h : WellFormed s) {newId : Uuid} (hfresh : Unused s newId)
    (jobId attemptId : Uuid) (workerId : String) (latencyMs : Int) (id : Uuid) :
    JobEntry (.markSucceeded now newId jobId attemptId workerId latencyMs) s
      (markSucceeded s now newId jobId attemptId workerId latencyMs).2 id :=
  JobEntry.markSucceeded (fun _ => .of_eq rfl) (fun _ hjob hst => .succeed hst (h.jobId _ _ hjob))
    (neverStarts_markSucceeded _ _ _ _ _) hfresh _ _ _ id

/-- The batch: so far, the call has only made allowed changes. -/
theorem markSucceededBatch_jobEntry {workerId : String} (updates : List (DateTime × Uuid × Uuid × Uuid × Int))
    (hfresh : ∀ u ∈ updates, Unused s u.2.1) (id : Uuid) :
    JobEntry (.markSucceededBatch updates workerId) s (markSucceededBatch workerId updates s).2 id := by
  obtain ⟨_, hentry, _⟩ := markSucceededBatch_keeps (I := fun rest t =>
    (∀ id, JobEntry (.markSucceededBatch updates workerId) s t id) ∧ ∀ u ∈ rest, Unused s u.2.1) (by
      rintro now newId jobId attemptId latencyMs rest t ⟨hentry, hfresh⟩
      refine ⟨?_, fun u hu => hfresh u (List.mem_cons_of_mem _ hu)⟩
      exact JobEntry.markSucceeded hentry (fun _ _ hst => .succeedBatch hst) (neverStarts_markSucceededBatch _ _)
        (hfresh _ List.mem_cons_self) attemptId workerId latencyMs) updates s
    ⟨fun id => .of_eq rfl, hfresh⟩
  exact hentry id

theorem rescheduleForRetry_jobEntry (h : WellFormed s) (jobId attemptId : Uuid) (workerId : String) (latencyMs : Int)
    (nextRunAt : DateTime) (errorCode errorMessage : String) (id : Uuid) :
    JobEntry (.reschedule now jobId attemptId workerId latencyMs nextRunAt errorCode errorMessage) s
      (rescheduleForRetry s now jobId attemptId workerId latencyMs nextRunAt errorCode errorMessage).2 id := by
  rcases rescheduleForRetry_cases s now jobId attemptId workerId latencyMs nextRunAt errorCode errorMessage with
    ⟨_, e, heq⟩ | ⟨job, att, ⟨hjob, hst, _⟩, _, heq⟩
  · rw [heq]
    exact .of_eq rfl
  · rw [heq]
    exact .of_update hjob (.retry hst (h.jobId _ _ hjob)) rfl id

theorem markDlq_jobEntry (h : WellFormed s) (jobId attemptId : Uuid) (workerId : String) (latencyMs : Int)
    (reasonCode errorCode errorMessage : String) (id : Uuid) :
    JobEntry (.markDlq now jobId attemptId workerId latencyMs reasonCode errorCode errorMessage) s
      (markDlq s now jobId attemptId workerId latencyMs reasonCode errorCode errorMessage).2 id := by
  rcases markDlq_cases s now jobId attemptId workerId latencyMs reasonCode errorCode errorMessage with
    ⟨_, e, heq⟩ | ⟨job, att, ⟨hjob, hst, _⟩, _, heq⟩
  · rw [heq]
    exact .of_eq rfl
  · rw [heq]
    exact .of_update hjob (.deadLetter hst (h.jobId _ _ hjob)) rfl id

theorem extendLease_jobEntry (h : WellFormed s) (jobId : Uuid) (workerId : String) (leaseSeconds : Int) (id : Uuid) :
    JobEntry (.extendLease now jobId workerId leaseSeconds) s (extendLease s now jobId workerId leaseSeconds).2
      id := by
  unfold extendLease
  cases hjob : s.jobs jobId with
  | none => exact .of_eq rfl
  | some job =>
      simp only
      split
      · rename_i hrun
        cases Chrono.addSeconds now leaseSeconds with
        | none => exact .of_eq rfl
        | some t => exact .of_update hjob (.extend hrun.1 (h.jobId _ _ hjob)) rfl id
      · exact .of_eq rfl

/-- An accepted `cancel_job`: the attempt it closes, if any, and the job it writes. -/
theorem cancelJob_ok (s : InnerState) (now : DateTime) (attemptOrder : List Uuid) (jobId : Uuid)
    (workerId : Option String) :
    (cancelJob s now attemptOrder jobId workerId).2 = s ∧
        (cancelJob s now attemptOrder jobId workerId).1 ≠ .ok () ∨
      ∃ job, s.jobs jobId = some job ∧ Cancellable workerId job.status job.lockedBy ∧
        (cancelJob s now attemptOrder jobId workerId).1 = .ok () ∧
        (cancelJob s now attemptOrder jobId workerId).2.jobs = update s.jobs jobId (some (cancelledJob now job)) ∧
        (cancelJob s now attemptOrder jobId workerId).2.archive = s.archive ∧
        (cancelJob s now attemptOrder jobId workerId).2.attemptCounts = s.attemptCounts ∧
        (cancelJob s now attemptOrder jobId workerId).2.attempts =
          (if job.status = "running" then
            match latestRunningAttempt s attemptOrder jobId with
            | some att => update s.attempts att.id (some (cancelledAttempt now att))
            | none => s.attempts
          else s.attempts) := by
  unfold cancelJob
  cases hjob : s.jobs jobId with
  | none => exact Or.inl ⟨rfl, by simp⟩
  | some job =>
      simp only
      cases hcheck : checkCancel jobId job.status job.lockedBy workerId with
      | error e => exact Or.inl ⟨rfl, by simp⟩
      | ok u =>
          refine Or.inr ⟨job, rfl, checkCancel_ok hcheck, ?_⟩
          rcases checkCancel_ok hcheck with hq | ⟨hr, _⟩
          · -- a queued job leaves the index; there is no attempt to close
            have hnr : job.status ≠ "running" := by simp [hq]
            simp only [if_pos hq, if_neg hnr]
            refine ⟨trivial, ?_, ?_, ?_, ?_⟩
            · exact InnerState.indexRemove_jobs _ _
            · exact InnerState.indexRemove_archive _ _
            · exact (onlyJobs_indexRemove _ _).attemptCounts
            · exact InnerState.indexRemove_attempts _ _
          · -- of a running job the latest open attempt is closed
            have hnq : job.status ≠ "queued" := by simp [hr]
            simp only [if_neg hnq, if_pos hr]
            cases latestRunningAttempt s attemptOrder jobId <;> exact ⟨trivial, rfl, rfl, rfl, rfl⟩

theorem cancelJob_jobEntry (h : WellFormed s) (attemptOrder : List Uuid) (jobId : Uuid)
    (workerId : Option String) (id : Uuid) :
    JobEntry (.cancel now attemptOrder jobId workerId) s (cancelJob s now attemptOrder jobId workerId).2 id := by
  rcases cancelJob_ok s now attemptOrder jobId workerId with ⟨hsame, _⟩ | ⟨job, hjob, hcan, _, hjobs, _⟩
  · rw [hsame]
    exact .of_eq rfl
  · exact .of_update hjob (.cancel (hcan.imp_right And.left) (h.jobId _ _ hjob)) hjobs id

/-- The archiving loop moves entries over and changes none. -/
theorem archive_foldl_jobEntry {op : MemOp} (ids : List Uuid) :
    ∀ t : InnerState, (∀ id, JobEntry op s t id) →
      (∀ id ∈ ids, ∀ job, t.jobs id = some job → s.jobs id = some job ∧ job.status = "succeeded") →
      ∀ id, JobEntry op s (ids.foldl archiveJob t) id := by
  induction ids with
  | nil => intro t h _; exact h
  | cons i rest ih =>
      intro t h hdone
      refine ih (archiveJob t i) ?_ ?_
      · intro id
        unfold archiveJob
        cases hjob : t.jobs i with
        | none => exact h id
        | some job =>
            by_cases hid : id = i
            · subst hid
              obtain ⟨hs, hst⟩ := hdone id List.mem_cons_self job hjob
              exact .archived hs hst (Function.update_self ..) (Function.update_self ..)
            · exact (h id).frame (Function.update_of_ne hid ..) (Function.update_of_ne hid ..)
      · intro id hid job hjob
        exact hdone id (List.mem_cons_of_mem _ hid) job (archiveJob_jobs t i id hjob)

theorem archiveSucceededOlderThan_jobEntry (h : WellFormed s) (order : List Uuid) (cutoff : DateTime)
    (limit : Int) (id : Uuid) :
    JobEntry (.archive order cutoff limit) s (archiveSucceededOlderThan s order cutoff limit).2 id := by
  refine archive_foldl_jobEntry _ s (fun id => .of_eq rfl) ?_ id
  intro i hi job hjob
  have hmem := ((List.take_sublist _ _).map (fun j : Job => j.id)).subset hi
  obtain ⟨j, hj, hp⟩ := mem_map_id_of_order h.jobId hmem
  rw [hjob] at hj
  cases hj
  simp only [Bool.and_eq_true, beq_iff_eq] at hp
  exact ⟨hjob, hp.1⟩

/-- **What a call makes of a stored job.** -/
theorem apply_jobEntry (h : WellFormed s) (op : MemOp) (hadm : op.Admissible s)
    (hret : (op.apply s).1 = true) (id : Uuid) : JobEntry op s (op.apply s).2 id := by
  cases op with
  | enqueue now newId order job =>
      simp only [MemOp.apply, MemOp.finish_snd, enqueue]
      cases job.idempotencyKey.bind (findByKey s order) with
      | some existing => exact .of_eq rfl
      | none => exact (JobEntry.of_eq rfl).insertQueued hadm.1 rfl
  | lease now queue workerId leaseSeconds batchSize ordering =>
      have hp := MemOp.finish_fst hret
      simp only [MemOp.apply, MemOp.finish_snd]
      exact lease_jobEntry h queue workerId leaseSeconds batchSize ordering hp id
  | reap now order =>
      simp only [MemOp.apply, MemOp.finish_snd]
      exact reap_jobEntry h hadm id
  | startAttempts now requests workerId =>
      simp only [MemOp.apply, MemOp.finish_snd]
      exact .of_eq (congrFun (startEach_frame requests s).1 id)
  | markSucceeded now newId jobId attemptId workerId latencyMs =>
      simp only [MemOp.apply, MemOp.finish_snd]
      exact markSucceeded_jobEntry h hadm jobId attemptId workerId latencyMs id
  | markSucceededBatch updates workerId =>
      simp only [MemOp.apply, MemOp.finish_snd]
      exact markSucceededBatch_jobEntry updates hadm.2 id
  | reschedule now jobId attemptId workerId latencyMs nextRunAt errorCode errorMessage =>
      simp only [MemOp.apply, MemOp.finish_snd]
      exact rescheduleForRetry_jobEntry h jobId attemptId workerId latencyMs nextRunAt errorCode errorMessage id
  | markDlq now jobId attemptId workerId latencyMs reasonCode errorCode errorMessage =>
      simp only [MemOp.apply, MemOp.finish_snd]
      exact markDlq_jobEntry h jobId attemptId workerId latencyMs reasonCode errorCode errorMessage id
  | extendLease now jobId workerId leaseSeconds =>
      simp only [MemOp.apply, MemOp.finish_snd]
      exact extendLease_jobEntry h jobId workerId leaseSeconds id
  | cancel now attemptOrder jobId workerId =>
      simp only [MemOp.apply, MemOp.finish_snd]
      exact cancelJob_jobEntry h attemptOrder jobId workerId id
  | archive order cutoff limit =>
      simp only [MemOp.apply, MemOp.finish_snd]
      exact archiveSucceededOlderThan_jobEntry h order cutoff limit id
  | deleteHistory archiveOrder attemptOrder cutoff limit =>
      simp only [MemOp.apply, MemOp.finish_snd]
      exact .of_eq rfl
  | replay now newId jobId overrideQueue overrideRunAt =>
      simp only [MemOp.apply, MemOp.finish_snd, replayJob]
      cases getJob s jobId with
      | none => exact .of_eq rfl
      | some src => exact (JobEntry.of_eq rfl).insertQueued hadm rfl

/-! ### The archive -/

theorem markSucceeded_archive (s : InnerState) (now : DateTime) (newId jobId attemptId : Uuid) (workerId : String)
    (latencyMs : Int) : (markSucceeded s now newId jobId attemptId workerId latencyMs).2.archive = s.archive := by
  rcases markSucceeded_cases s now newId jobId attemptId workerId latencyMs with
    ⟨_, heq⟩ | ⟨_, _, e, heq⟩ | ⟨next, job, att, _, _, _, heq⟩
  · rw [heq]
  · rw [heq]
  · rw [heq]
    exact insertNext_archive next

theorem markSucceededBatch_archive {workerId : String} (updates : List (DateTime × Uuid × Uuid × Uuid × Int))
    (s : InnerState) : (markSucceededBatch workerId updates s).2.archive = s.archive := by
  obtain ⟨_, hsame⟩ := markSucceededBatch_keeps (I := fun _ t => t.archive = s.archive)
    (fun now newId jobId attemptId latencyMs _ t h =>
      (markSucceeded_archive t now newId jobId attemptId workerId latencyMs).trans h) updates s rfl
  exact hsame

/-- Only jobs that are stored are archived. -/
theorem archive_foldl_archive {id : Uuid} (ids : List Uuid) :
    ∀ s : InnerState, s.jobs id = none → (ids.foldl archiveJob s).archive id = s.archive id := by
  induction ids with
  | nil => intro s _; rfl
  | cons i rest ih =>
      intro s hnone
      have hround : (archiveJob s i).jobs id = none ∧ (archiveJob s i).archive id = s.archive id := by
        unfold archiveJob
        cases hjob : s.jobs i with
        | none => exact ⟨hnone, rfl⟩
        | some job =>
            have hne : id ≠ i := by
              rintro rfl
              rw [hnone] at hjob
              cases hjob
            exact ⟨(Function.update_of_ne hne ..).trans hnone, Function.update_of_ne hne ..⟩
      rw [List.foldl_cons, ih _ hround.1, hround.2]

/-- Only `archive_succeeded_older_than` writes the archive. -/
theorem apply_archive_eq (op : MemOp) (hret : (op.apply s).1 = true)
    (hother : ∀ order cutoff limit, op ≠ .archive order cutoff limit) : (op.apply s).2.archive = s.archive := by
  cases op with
  | enqueue now newId order new =>
      simp only [MemOp.apply, MemOp.finish_snd]
      exact (enqueue_onlyJobs s now newId order new).archive
  | lease now queue workerId leaseSeconds batchSize ordering =>
      have hp := MemOp.finish_fst hret
      obtain ⟨_, _, _, honly⟩ := lease_jobs queue workerId leaseSeconds batchSize ordering hp
      simp only [MemOp.apply, MemOp.finish_snd]
      exact honly.archive
  | reap now order =>
      simp only [MemOp.apply, MemOp.finish_snd]
      exact (reap_jobs s now order).2.archive
  | startAttempts now requests workerId =>
      simp only [MemOp.apply, MemOp.finish_snd]
      exact (startEach_frame requests s).2.2
  | markSucceeded now newId jobId attemptId workerId latencyMs =>
      simp only [MemOp.apply, MemOp.finish_snd]
      exact markSucceeded_archive s now newId jobId attemptId workerId latencyMs
  | markSucceededBatch updates workerId =>
      simp only [MemOp.apply, MemOp.finish_snd]
      exact markSucceededBatch_archive updates s
  | reschedule now jobId attemptId workerId latencyMs nextRunAt errorCode errorMessage =>
      simp only [MemOp.apply, MemOp.finish_snd, rescheduleForRetry]
      cases requireLease s jobId workerId "retry_wait" with
      | error e => rfl
      | ok job => cases requireAttempt s attemptId jobId "fail" <;> rfl
  | markDlq now jobId attemptId workerId latencyMs reasonCode errorCode errorMessage =>
      simp only [MemOp.apply, MemOp.finish_snd, markDlq]
      cases requireLease s jobId workerId "dlq" with
      | error e => rfl
      | ok job => cases requireAttempt s attemptId jobId "fail" <;> rfl
  | extendLease now jobId workerId leaseSeconds =>
      simp only [MemOp.apply, MemOp.finish_snd]
      exact (extendLease_onlyJobs s now jobId workerId leaseSeconds).archive
  | cancel now attemptOrder jobId workerId =>
      simp only [MemOp.apply, MemOp.finish_snd]
      rcases cancelJob_ok s now attemptOrder jobId workerId with ⟨hsame, _⟩ | ⟨_, _, _, _, _, hkeep, _⟩
      · rw [hsame]
      · rw [hkeep]
  | archive order cutoff limit => exact absurd rfl (hother order cutoff limit)
  | deleteHistory archiveOrder attemptOrder cutoff limit => rfl
  | replay now newId jobId overrideQueue overrideRunAt =>
      simp only [MemOp.apply, MemOp.finish_snd]
      exact (replayJob_onlyJobs s now newId jobId overrideQueue overrideRunAt).archive

/-- A call archives nothing under an id that no job is stored under. -/
theorem apply_archive_absent (op : MemOp) (hret : (op.apply s).1 = true) {id : Uuid} (hnone : s.jobs id = none) :
    (op.apply s).2.archive id = s.archive id := by
  by_cases hop : ∃ order cutoff limit, op = .archive order cutoff limit
  · obtain ⟨order, cutoff, limit, rfl⟩ := hop
    simp only [MemOp.apply, MemOp.finish_snd]
    exact archive_foldl_archive _ s hnone
  · exact congrFun (apply_archive_eq op hret fun order cutoff limit heq => hop ⟨_, _, _, heq⟩) id

/-- **The archive only grows.** -/
theorem apply_archive (h : WellFormed s) (op : MemOp) (hret : (op.apply s).1 = true) {id : Uuid} {job : Job}
    (harch : s.archive id = some job) : (op.apply s).2.archive id = some job := by
  obtain ⟨_, _, _, hnone⟩ := h.archived id job harch
  rw [apply_archive_absent op hret hnone]
  exact harch

end Azums.Memory
