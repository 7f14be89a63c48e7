import Azums.Memory.Calls

/-!
# `Memory.Registry` — no job is lost, and none comes from nowhere

To a client the backend is a registry: `get_job` finds a job under its id, in the job map or in the archive. Most of what it
finds was fixed on the job's first day (`JobIdentity`); the calls that move the job change the rest. `Born` says which
calls bring a new job into being, and what it is: `enqueue`, `replay_job`, and the acknowledgement of a recurring job.

`registry_law` says of every run that the registry only grows, that an entry never changes, and that every entry was made
by one of these calls.
-/

namespace Azums.Memory

open Function (update)

variable {s s' t : InnerState} {id : Uuid}

/-! ## The registry -/

/-- The fields of a job that no call changes. -/
structure JobIdentity where
  datasetId : String
  replayOfJobId : Option Uuid
  idempotencyKey : Option String
  id : Uuid
  queue : String
  jobType : String
  payload : Value
  deadlineAt : Option DateTime
  timeoutSeconds : Option Int
  recurringIntervalSeconds : Option Int
  priority : Int
  maxAttempts : Int
  createdAt : DateTime
deriving DecidableEq

/-- The identity of a job. -/
def identity (job : Job) : JobIdentity :=
  { datasetId := job.datasetId
    replayOfJobId := job.replayOfJobId
    idempotencyKey := job.idempotencyKey
    id := job.id
    queue := job.queue
    jobType := job.jobType
    payload := job.payload
    deadlineAt := job.deadlineAt
    timeoutSeconds := job.timeoutSeconds
    recurringIntervalSeconds := job.recurringIntervalSeconds
    priority := job.priority
    maxAttempts := job.maxAttempts
    createdAt := job.createdAt }

/-- What a client may know of a job for good. -/
def registry (s : InnerState) (id : Uuid) : Option JobIdentity := (getJob s id).map identity

theorem JobMove.identity {op : MemOp} {job job' : Job} (h : JobMove op job job') :
    Memory.identity job' = Memory.identity job := by
  cases h <;> rfl

/-- **An entry stays.** -/
theorem registry_step {call : Call} (hwf : WellFormed s) (hstep : backendSystem.step s call s') {r : JobIdentity}
    (h : registry s id = some r) : registry s' id = some r := by
  rw [registry, Option.map_eq_some_iff] at h ⊢
  obtain ⟨job, hget, rfl⟩ := h
  obtain ⟨job', hget', rfl | ⟨op, _, move⟩⟩ := getJob_step hwf hstep hget
  · exact ⟨job', hget', rfl⟩
  · exact ⟨job', hget', move.identity⟩

/-! ## New jobs -/

/-- The calls that make a job, and the job they make. -/
inductive Born (s : InnerState) : MemOp → Job → Prop where
  | enqueued {now : DateTime} {newId : Uuid} {order : List Uuid} {new : NewJob} :
      new.idempotencyKey.bind (findByKey s order) = none →
      Born s (.enqueue now newId order new) (newEntity now newId new)
  | replayed {now : DateTime} {newId jobId : Uuid} {overrideQueue : Option String} {overrideRunAt : Option DateTime}
      {src : Job} : getJob s jobId = some src →
      Born s (.replay now newId jobId overrideQueue overrideRunAt)
        (replayEntity now newId jobId (overrideQueue.getD src.queue) (overrideRunAt.getD now) src)
  | recurred {now : DateTime} {newId jobId attemptId : Uuid} {workerId : String} {latencyMs interval : Int}
      {job next : Job} : s.jobs jobId = some job → job.status = "running" → job.lockedBy = some workerId →
      job.recurringIntervalSeconds = some interval → nextOccurrence now newId job interval = some next →
      Born s (.markSucceeded now newId jobId attemptId workerId latencyMs) next
  | recurredInBatch {now : DateTime} {newId jobId attemptId : Uuid} {workerId : String} {latencyMs interval : Int}
      {updates : List (DateTime × Uuid × Uuid × Uuid × Int)} {job next : Job} :
      (now, newId, jobId, attemptId, latencyMs) ∈ updates → s.jobs jobId = some job → job.status = "running" →
      job.lockedBy = some workerId → job.recurringIntervalSeconds = some interval →
      nextOccurrence now newId job interval = some next → Born s (.markSucceededBatch updates workerId) next

theorem nextOccurrence_id {now : DateTime} {newId : Uuid} {job next : Job} {interval : Int}
    (h : nextOccurrence now newId job interval = some next) : next.id = newId :=
  (nextOccurrence_spec h).1

theorem recurringJob_some {now : DateTime} {newId jobId : Uuid} {job next : Job} (hjob : s.jobs jobId = some job)
    (h : recurringJob s now newId jobId = some (some next)) :
    ∃ interval, job.recurringIntervalSeconds = some interval ∧ nextOccurrence now newId job interval = some next := by
  unfold recurringJob at h
  simp only [hjob] at h
  cases hi : job.recurringIntervalSeconds with
  | none => simp [hi] at h
  | some interval =>
      simp only [hi, Option.map_eq_some_iff, Option.some.injEq, exists_eq_right] at h
      exact ⟨interval, rfl, h⟩

/-- What is stored after `mark_succeeded` was stored before, is the completed job, or is its next occurrence. -/
theorem markSucceeded_after {now : DateTime} {newId jobId attemptId : Uuid} {workerId : String} {latencyMs : Int}
    {after : Job} (h : (markSucceeded t now newId jobId attemptId workerId latencyMs).2.jobs id = some after) :
    t.jobs id = some after ∨ (∃ job, t.jobs id = some job ∧ job.status = "running") ∨
      ∃ job interval, t.jobs jobId = some job ∧ job.status = "running" ∧ job.lockedBy = some workerId ∧
        job.recurringIntervalSeconds = some interval ∧ nextOccurrence now newId job interval = some after := by
  rcases markSucceeded_cases t now newId jobId attemptId workerId latencyMs with
    ⟨_, heq⟩ | ⟨_, _, e, heq⟩ | ⟨next, job, att, hrec, ⟨hjob, hst, hby⟩, _, heq⟩
  · rw [heq] at h; exact Or.inl h
  · rw [heq] at h; exact Or.inl h
  · rw [heq] at h
    have hdone : ((t.setAttempt attemptId (succeededAttempt now latencyMs att)).setJob jobId
        (completedJob now job)).jobs id = some after →
        t.jobs id = some after ∨ ∃ job, t.jobs id = some job ∧ job.status = "running" := by
      intro hset
      rcases update_eq_some hset with ⟨rfl, _⟩ | ⟨_, hold⟩
      · exact Or.inr ⟨job, hjob, hst⟩
      · exact Or.inl hold
    cases next with
    | none => exact (hdone h).imp_right Or.inl
    | some next =>
        rcases update_eq_some h with ⟨_, rfl⟩ | ⟨_, hold⟩
        · obtain ⟨interval, hi, hnext⟩ := recurringJob_some hjob hrec
          exact Or.inr (Or.inr ⟨job, interval, hjob, hst, hby, hi, hnext⟩)
        · exact (hdone hold).imp_right Or.inl

theorem mapAt_eq_none {f : Job → Job} {ids : List Uuid} {m : Uuid → Option Job} (h : m id = none) :
    mapAt f ids m id = none := by
  rw [mapAt, h]
  split <;> rfl

theorem archive_foldl_jobs {job : Job} (ids : List Uuid) :
    ∀ s : InnerState, (ids.foldl archiveJob s).jobs id = some job → s.jobs id = some job := by
  induction ids with
  | nil => intro s h; exact h
  | cons i rest ih =>
      intro s h
      exact archiveJob_jobs s i id (ih (archiveJob s i) h)

/-- A batch of acknowledgements makes the next occurrences of the jobs that it completes. -/
theorem markSucceededBatch_born {workerId : String} (updates : List (DateTime × Uuid × Uuid × Uuid × Int))
    (hfresh : ∀ u ∈ updates, Unused s u.2.1) (hnone : s.jobs id = none) {job : Job}
    (hjob : (markSucceededBatch workerId updates s).2.jobs id = some job) :
    Born s (.markSucceededBatch updates workerId) job := by
  obtain ⟨_, _, _, hborn⟩ := @markSucceededBatch_keeps (fun rest t =>
    (∀ u ∈ rest, u ∈ updates) ∧ (∀ i, JobEntry (.markSucceededBatch updates workerId) s t i) ∧
      ∀ j, t.jobs id = some j → Born s (.markSucceededBatch updates workerId) j) workerId (by
      rintro now newId jobId attemptId latencyMs rest t ⟨hsub, hentry, hborn⟩
      have hin := hsub _ List.mem_cons_self
      refine ⟨fun u hu => hsub u (List.mem_cons_of_mem _ hu), ?_, fun j hj => ?_⟩
      · exact JobEntry.markSucceeded hentry (fun _ _ hst => .succeedBatch hst) (neverStarts_markSucceededBatch _ _)
          (hfresh _ hin) attemptId workerId latencyMs
      · rcases markSucceeded_after hj with hold | ⟨run, hrun, hst⟩ | ⟨src, interval, hsrc, hst, hby, hi, hnext⟩
        · exact hborn j hold
        · -- only a job that was there before the batch can be running
          have hbefore := (hentry id).running_before (neverStarts_markSucceededBatch _ _) hrun hst
          rw [hnone] at hbefore
          cases hbefore
        · have hbefore := (hentry jobId).running_before (neverStarts_markSucceededBatch _ _) hsrc hst
          exact .recurredInBatch hin hbefore hst hby hi hnext) updates s
    ⟨fun u hu => hu, fun i => .of_eq rfl, fun j hj => by rw [hnone] at hj; cases hj⟩
  exact hborn job hjob

/-- **Nothing comes from nowhere.** -/
theorem apply_born {op : MemOp} (hadm : op.Admissible s) (hret : (op.apply s).1 = true)
    (hnone : s.jobs id = none) {job : Job} (hjob : (op.apply s).2.jobs id = some job) : Born s op job := by
  have hold : s.jobs id ≠ some job := by simp [hnone]
  cases op with
  | enqueue now newId order new =>
      simp only [MemOp.apply, MemOp.finish_snd, enqueue] at hjob
      cases hkey : new.idempotencyKey.bind (findByKey s order) with
      | some existing => rw [hkey] at hjob; exact absurd hjob hold
      | none =>
          rw [hkey] at hjob
          rcases update_eq_some hjob with ⟨_, rfl⟩ | ⟨_, hsame⟩
          · exact .enqueued hkey
          · exact absurd hsame hold
  | lease now queue workerId leaseSeconds batchSize ordering =>
      obtain ⟨_, _, hjobs, _⟩ := lease_jobs queue workerId leaseSeconds batchSize ordering (MemOp.finish_fst hret)
      simp only [MemOp.apply, MemOp.finish_snd, hjobs] at hjob
      rw [mapAt_eq_none (mapAt_eq_none hnone)] at hjob
      cases hjob
  | reap now order =>
      simp only [MemOp.apply, MemOp.finish_snd, (reap_jobs s now order).1] at hjob
      rw [mapAt_eq_none hnone] at hjob
      cases hjob
  | startAttempts now requests workerId =>
      simp only [MemOp.apply, MemOp.finish_snd, startAttemptsBatch, (startEach_frame requests s).1] at hjob
      exact absurd hjob hold
  | markSucceeded now newId jobId attemptId workerId latencyMs =>
      simp only [MemOp.apply, MemOp.finish_snd] at hjob
      rcases markSucceeded_after hjob with hsame | ⟨run, hrun, _⟩ | ⟨src, interval, hsrc, hst, hby, hi, hnext⟩
      · exact absurd hsame hold
      · rw [hnone] at hrun; cases hrun
      · exact .recurred hsrc hst hby hi hnext
  | markSucceededBatch updates workerId =>
      simp only [MemOp.apply, MemOp.finish_snd] at hjob
      exact markSucceededBatch_born updates hadm.2 hnone hjob
  | reschedule now jobId attemptId workerId latencyMs nextRunAt errorCode errorMessage =>
      simp only [MemOp.apply, MemOp.finish_snd] at hjob
      rcases rescheduleForRetry_cases s now jobId attemptId workerId latencyMs nextRunAt errorCode errorMessage with
        ⟨_, e, heq⟩ | ⟨src, att, ⟨hsrc, _⟩, _, heq⟩
      · rw [heq] at hjob; exact absurd hjob hold
      · rw [heq] at hjob
        rcases update_eq_some hjob with ⟨rfl, _⟩ | ⟨_, hsame⟩
        · rw [hnone] at hsrc; cases hsrc
        · exact absurd hsame hold
  | markDlq now jobId attemptId workerId latencyMs reasonCode errorCode errorMessage =>
      simp only [MemOp.apply, MemOp.finish_snd] at hjob
      rcases markDlq_cases s now jobId attemptId workerId latencyMs reasonCode errorCode errorMessage with
        ⟨_, e, heq⟩ | ⟨src, att, ⟨hsrc, _⟩, _, heq⟩
      · rw [heq] at hjob; exact absurd hjob hold
      · rw [heq] at hjob
        rcases update_eq_some hjob with ⟨rfl, _⟩ | ⟨_, hsame⟩
        · rw [hnone] at hsrc; cases hsrc
        · exact absurd hsame hold
  | extendLease now jobId workerId leaseSeconds =>
      simp only [MemOp.apply, MemOp.finish_snd, extendLease] at hjob
      cases hsrc : s.jobs jobId with
      | none => simp only [hsrc] at hjob; exact absurd hjob hold
      | some src =>
          simp only [hsrc] at hjob
          split at hjob
          · cases hadd : Chrono.addSeconds now leaseSeconds with
            | none => rw [hadd] at hjob; exact absurd hjob hold
            | some expires =>
                rw [hadd] at hjob
                rcases update_eq_some hjob with ⟨rfl, _⟩ | ⟨_, hsame⟩
                · rw [hnone] at hsrc; cases hsrc
                · exact absurd hsame hold
          · exact absurd hjob hold
  | cancel now attemptOrder jobId workerId =>
      simp only [MemOp.apply, MemOp.finish_snd] at hjob
      rcases cancelJob_ok s now attemptOrder jobId workerId with ⟨hsame, _⟩ | ⟨src, hsrc, _, _, hjobs, _⟩
      · rw [hsame] at hjob; exact absurd hjob hold
      · rw [hjobs] at hjob
        rcases update_eq_some hjob with ⟨rfl, _⟩ | ⟨_, hsame⟩
        · rw [hnone] at hsrc; cases hsrc
        · exact absurd hsame hold
  | archive order cutoff limit =>
      simp only [MemOp.apply, MemOp.finish_snd] at hjob
      exact absurd (archive_foldl_jobs _ s hjob) hold
  | deleteHistory archiveOrder attemptOrder cutoff limit => exact absurd hjob hold
  | replay now newId jobId overrideQueue overrideRunAt =>
      simp only [MemOp.apply, MemOp.finish_snd, replayJob] at hjob
      cases hsrc : getJob s jobId with
      | none => rw [hsrc] at hjob; exact absurd hjob hold
      | some src =>
          rw [hsrc] at hjob
          rcases update_eq_some hjob with ⟨_, rfl⟩ | ⟨_, hsame⟩
          · exact .replayed hsrc
          · exact absurd hsame hold

theorem Born.id_unused {op : MemOp} (hadm : op.Admissible s) {job : Job} (h : Born s op job) : Unused s job.id := by
  cases h with
  | enqueued _ => exact hadm.1
  | replayed _ => exact hadm
  | recurred _ _ _ _ hnext => rw [nextOccurrence_id hnext]; exact hadm
  | recurredInBatch hin _ _ _ _ hnext => rw [nextOccurrence_id hnext]; exact hadm.2 _ hin

/-- An entry that a call adds is the identity of a job that the call makes. -/
theorem registry_added {call : Call} (hwf : WellFormed s) (hstep : backendSystem.step s call s') {r : JobIdentity}
    (hnone : registry s id = none) (h : registry s' id = some r) :
    ∃ op job, call = .job op ∧ Born s op job ∧ job.id = id ∧ identity job = r := by
  rw [registry, Option.map_eq_none_iff] at hnone
  rw [registry, Option.map_eq_some_iff] at h
  obtain ⟨job, hget, hr⟩ := h
  have hunused : s.jobs id = none ∧ s.archive id = none := by
    cases hjob : s.jobs id with
    | some j => simp [getJob, hjob] at hnone
    | none => exact ⟨rfl, by simpa [getJob, hjob] using hnone⟩
  rcases backendSystem_step hstep with ⟨op, rfl, hadm, happ⟩ | ⟨_, hsame⟩
  · have hret : (op.apply s).1 = true := by rw [happ]
    have hafter : (op.apply s).2 = s' := by rw [happ]
    have hwf' := MemOp.apply_wellFormed hwf op hadm hret
    rw [← hafter] at hget
    rcases getJob_eq_some.mp hget with hjob | ⟨_, harch⟩
    · exact ⟨op, job, rfl, apply_born hadm hret hunused.1 hjob, hwf'.jobId id job hjob, hr⟩
    · rw [apply_archive_absent op hret hunused.1, hunused.2] at harch
      cases harch
  · rw [getJob, hsame.jobs, hsame.archive, hunused.1, hunused.2] at hget
    cases hget

/-! ## The law of the registry -/

/-- The call of a run that made an entry: a call that found its id unused, and made a job with this identity. -/
def Entered (s : InnerState) (calls : List Call) (s' : InnerState) (id : Uuid) (r : JobIdentity) : Prop :=
  ∃ before op after t t' job, calls = before ++ Call.job op :: after ∧ backendSystem.Run s before t ∧
    backendSystem.step t (.job op) t' ∧ backendSystem.Run t' after s' ∧ Unused t id ∧ Born t op job ∧
    job.id = id ∧ identity job = r

theorem Entered.cons {call : Call} {calls : List Call} {r : JobIdentity} (hstep : backendSystem.step s call t)
    (h : Entered t calls s' id r) : Entered s (call :: calls) s' id r := by
  obtain ⟨before, op, after, u, u', job, rfl, hbefore, hmade, hafter, hfacts⟩ := h
  exact ⟨call :: before, op, after, u, u', job, rfl, .cons hstep hbefore, hmade, hafter, hfacts⟩

theorem registry_kept {calls : List Call} (h : backendSystem.Reachable s) (hrun : backendSystem.Run s calls s')
    {r : JobIdentity} (hr : registry s id = some r) : registry s' id = some r := by
  refine hrun.keeps (I := fun s => registry s id = some r) ?_ h hr
  intro t call t' hreach hkept hstep
  exact registry_step (backend_invariants hreach).1 hstep hkept

theorem registry_entered {calls : List Call} (hrun : backendSystem.Run s calls s') :
    backendSystem.Reachable s → ∀ {r : JobIdentity}, registry s id = none → registry s' id = some r →
      Entered s calls s' id r := by
  induction hrun with
  | nil s => intro _ r hnone h; rw [hnone] at h; cases h
  | @cons s t s' call calls hstep hrest ih =>
      intro hreach r hnone h
      cases hmid : registry t id with
      | none => exact (ih (hreach.next hstep) hmid h).cons hstep
      | some r' =>
          -- entered by this call, and the rest of the run keeps it
          have hkept := registry_kept (hreach.next hstep) hrest hmid
          obtain rfl : r' = r := Option.some.inj (hkept.symm.trans h)
          obtain ⟨op, job, rfl, hborn, rfl, hid⟩ := registry_added (backend_invariants hreach).1 hstep hnone hmid
          obtain ⟨op', heq, hadm, _⟩ | ⟨⟨_, heq⟩, _⟩ := backendSystem_step hstep
          · obtain rfl := Call.job.inj heq
            exact ⟨[], op, calls, s, t, job, rfl, .nil s, hstep, hrest, hborn.id_unused hadm, hborn, rfl, hid⟩
          · cases heq

/-- **The registry law.** In every run of the backend an entry of the registry stays as it is, and an entry that the run
    adds was made by one call of the run: an `enqueue` whose idempotency key found no job, a `replay_job` of a job on
    record, or the acknowledgement of a recurring job by the worker that held it. -/
theorem registry_law {calls : List Call} (h : backendSystem.Reachable s) (hrun : backendSystem.Run s calls s') :
    (∀ id r, registry s id = some r → registry s' id = some r) ∧
      ∀ id r, registry s id = none → registry s' id = some r → Entered s calls s' id r :=
  ⟨fun _ _ hr => registry_kept h hrun hr, fun _ _ hnone hr => registry_entered hrun h hnone hr⟩

/-- A job is enqueued and cancelled: its copy was made by the `replay_job`, and it is on record for good. -/
theorem registry_law_replayed :
    let s := ((Call.job (.cancel 1 [] 7 none)).apply
      ((Call.job (.enqueue 0 7 [] welcomeEmail)).apply InnerState.init).2).2
    let calls := [Call.job (.replay 2 8 7 none none), Call.job (.lease 3 "emails" "w1" 30 10 .fifo)]
    let s' := ((Call.job (.lease 3 "emails" "w1" 30 10 .fifo)).apply
      ((Call.job (.replay 2 8 7 none none)).apply s).2).2
    registry s' 7 = registry s 7 ∧
      ∃ r, r.replayOfJobId = some 7 ∧ registry s' 8 = some r ∧ Entered s calls s' 8 r := by
  intro s calls s'
  have hreach : backendSystem.Reachable s :=
    .next (i := .job (.cancel 1 [] 7 none)) (.next (i := .job (.enqueue 0 7 [] welcomeEmail)) (.start rfl)
      ⟨⟨⟨rfl, rfl⟩, enumerates_nil⟩, rfl⟩) ⟨enumerates_nil, Prod.ext (by decide) rfl⟩
  have hrun : backendSystem.Run s calls s' :=
    .cons ⟨⟨by decide, by decide⟩, Prod.ext (by decide) rfl⟩
      (.cons ⟨trivial, Prod.ext (by decide) rfl⟩ (.nil _))
  obtain ⟨hstays, hentered⟩ := registry_law hreach hrun
  have hseven : registry s 7 = some (identity (newEntity 0 7 welcomeEmail)) := by decide
  have height : registry s' 8 = some (identity (replayEntity 2 8 7 "emails" 2
      (cancelledJob 1 (newEntity 0 7 welcomeEmail)))) := by decide
  exact ⟨(hstays 7 _ hseven).trans hseven.symm, _, by decide, height, hentered 8 _ (by decide) height⟩

end Azums.Memory
