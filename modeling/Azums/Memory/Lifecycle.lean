import Azums.Core.Lifecycle
import Azums.Memory.Calls

/-!
# `Memory.Lifecycle` — the backend against the canonical lifecycle

`MemoryBackend` writes status strings and never asks `can_transition_to`. Seen through `lifecycle_state_at`, at the
clock of the call and with the failed attempts before and after it, a call either leaves a job's canonical state
alone, or takes it along a listed edge, or is one of four documented exceptions (`OffTable`):

* the reaper puts a job whose lease has run out back into its queue;
* a lease sends a queued job that missed its deadline to the DLQ;
* `cancel_job` cancels work that is not running;
* `reschedule_for_retry` is given a time that has already come.
-/

namespace Azums.Memory

open JobLifecycleState

/-! ## Failed attempts -/

/-- The number of a job's failed attempts, counted over an order of the attempts map. -/
def failedAttempts (s : InnerState) (order : List Uuid) (jobId : Uuid) : Nat :=
  ((order.filterMap s.attempts).filter (fun att => decide (att.jobId = jobId) && att.status == "failed")).length

variable {s s' : InnerState}

theorem failedAttempts_pos {order : List Uuid} (ho : Enumerates s.attempts order) {jobId : Uuid} :
    0 < failedAttempts s order jobId ↔
      ∃ a att, s.attempts a = some att ∧ att.jobId = jobId ∧ att.status = "failed" := by
  unfold failedAttempts
  rw [List.length_pos_iff_exists_mem]
  constructor
  · rintro ⟨att, hatt⟩
    obtain ⟨hin, hp⟩ := List.mem_filter.mp hatt
    obtain ⟨a, _, ha⟩ := List.mem_filterMap.mp hin
    rw [Bool.and_eq_true, decide_eq_true_eq, beq_iff_eq] at hp
    exact ⟨a, att, ha, hp⟩
  · rintro ⟨a, att, ha, hj, hst⟩
    refine ⟨att, List.mem_filter.mpr ⟨List.mem_filterMap.mpr ⟨a, ?_, ha⟩, by simp [hj, hst]⟩⟩
    rw [ho.complete, ha, Option.isSome_some]

/-- A call changes no attempt of a job that is queued: it opens and closes attempts of running jobs, and removes
    those of archived ones. -/
theorem attempts_of_queued {op : MemOp} (hwf : WellFormed s) (hadm : op.Admissible s)
    (hentry : ∀ a, AttemptEntry op s s' a) {id : Uuid} {job : Job} (hjob : s.jobs id = some job)
    (hst : job.status = "queued") :
    (∃ a att, s.attempts a = some att ∧ att.jobId = id ∧ att.status = "failed") ↔
      ∃ a att, s'.attempts a = some att ∧ att.jobId = id ∧ att.status = "failed" := by
  -- attempts are closed only for a running job, and this one is queued
  have hnot : ∀ j : Job, s.jobs id = some j → j.status = "running" → False := by
    intro j hj hr
    rw [hjob] at hj
    cases hj
    rw [hst] at hr
    simp at hr
  constructor
  · rintro ⟨a, att, hatt, rfl, hf⟩
    cases hentry a with
    | kept same => exact ⟨a, att, same.trans hatt, rfl, hf⟩
    | started drawn after leased running holder =>
        rw [unused_of_drawn hadm drawn] at hatt
        cases hatt
    | closed before after closes leased running =>
        rw [hatt] at before
        cases before
        exact (hnot _ leased running).elim
    | removed before after archived =>
        rw [hatt] at before
        cases before
        rw [hwf.archive_eq_none hjob] at archived
        cases archived
  · rintro ⟨a, att, hatt, rfl, hf⟩
    cases hentry a with
    | kept same => exact ⟨a, att, same.symm.trans hatt, rfl, hf⟩
    | started drawn after leased running holder =>
        rw [hatt] at after
        cases after
        exact absurd hf (by simp [startedAttempt])
    | closed before after closes leased running =>
        rw [hatt] at after
        cases after
        rw [closes.jobId] at hjob hnot
        exact (hnot _ leased running).elim
    | removed before after archived => rw [hatt] at after; cases after

/-! ## The refinement -/

/-- The clock a call reads. A batch reads one for each item, and archiving, deleting and stream pruning read none. -/
def Call.clock : Call → Option DateTime
  | job (.enqueue now ..) | job (.lease now ..) | job (.reap now ..) | job (.startAttempts now ..)
  | job (.markSucceeded now ..) | job (.reschedule now ..) | job (.markDlq now ..) | job (.extendLease now ..)
  | job (.cancel now ..) | job (.replay now ..) | stream (.publish now ..) | stream (.ack now ..) => some now
  | job (.markSucceededBatch ..) | job (.archive ..) | job (.deleteHistory ..) | stream (.prune ..) => none

/-- The transitions at clock `t` that are not in the table. -/
inductive OffTable (t : DateTime) : Call → Job → JobLifecycleState → JobLifecycleState → Prop where
  | leaseExpired {now expires : DateTime} {order : List Uuid} {job : Job} {target : JobLifecycleState} :
      job.lockExpiresAt = some expires → expires ≤ t →
      target = queued ∨ (target = scheduled ∧ t < job.runAt) →
      OffTable t (.job (.reap now order)) job running target
  | deadlineMissed {now deadline : DateTime} {queue workerId : String} {leaseSeconds batchSize : Int}
      {ordering : QueueOrdering} {job : Job} :
      job.deadlineAt = some deadline → deadline < t →
      OffTable t (.job (.lease now queue workerId leaseSeconds batchSize ordering)) job queued dlq
  | cancelled {now : DateTime} {attemptOrder : List Uuid} {jobId : Uuid} {workerId : Option String} {job : Job}
      {source : JobLifecycleState} :
      source = scheduled ∨ source = queued ∨ source = retryWait →
      OffTable t (.job (.cancel now attemptOrder jobId workerId)) job source cancelled
  | retriedAtOnce {now nextRunAt : DateTime} {jobId attemptId : Uuid} {workerId errorCode errorMessage : String}
      {latencyMs : Int} {job : Job} :
      nextRunAt ≤ t →
      OffTable t (.job (.reschedule now jobId attemptId workerId latencyMs nextRunAt errorCode errorMessage)) job
        running queued

/-- How the canonical states of a job before and after a call may be related. -/
def Follows (t : DateTime) (call : Call) (job : Job) (source target : JobLifecycleState) : Prop :=
  source = target ∨ source.canTransitionTo target = true ∨ OffTable t call job source target

/-- The record of the job is the same, and so is its canonical state. -/
theorem follows_of_same {t : DateTime} {call : Call} {job : Job} {n m : Nat} {known : JobLifecycleState}
    (h : job.lifecycleStateAt t n = .ok known) (heq : job.lifecycleStateAt t n = job.lifecycleStateAt t m) :
    ∃ source target, job.lifecycleStateAt t n = .ok source ∧ job.lifecycleStateAt t m = .ok target ∧
      Follows t call job source target :=
  ⟨known, known, h, heq ▸ h, Or.inl rfl⟩

/-- A job in order has a canonical state. -/
theorem JobOk.lifecycle {job : Job} (h : JobOk job) (t : DateTime) (n : Nat) :
    ∃ known, job.lifecycleStateAt t n = .ok known := by
  rcases h.status with hst | hst | hst | hst | hst
  · obtain ⟨source, hsource, _⟩ := lifecycleStateAt_waiting hst t n
    exact ⟨source, hsource⟩
  · exact ⟨_, lifecycleStateAt_running hst _ _⟩
  · exact ⟨_, lifecycleStateAt_succeeded hst⟩
  · exact ⟨_, lifecycleStateAt_dlq hst⟩
  · exact ⟨_, lifecycleStateAt_canceled hst⟩

/-- What is left of the canonical state when only the status matters. -/
theorem lifecycle_of_not_queued {job : Job} (h : job.status ≠ "queued") (t : DateTime) (n m : Nat) :
    job.lifecycleStateAt t n = job.lifecycleStateAt t m := by
  unfold Job.lifecycleStateAt
  cases hparse : JobStatus.parse job.status with
  | error e => rfl
  | ok status =>
      cases status with
      | queued =>
          exfalso
          unfold JobStatus.parse at hparse
          split at hparse <;> simp_all
      | _ => rfl

/-- A stored job, after a change of `Memory.Moves`. -/
theorem follows_of_move {op : MemOp} {t : DateTime} (hclock : ∀ now, (Call.job op).clock = some now → now = t)
    {job job' : Job} (hok : JobOk job) (hmove : JobMove op job job') {n m : Nat}
    (hkept : job = job' → job.status = "queued" → (0 < n ↔ 0 < m))
    (hretried : ∀ now jobId attemptId workerId latencyMs nextRunAt errorCode errorMessage,
      op = .reschedule now jobId attemptId workerId latencyMs nextRunAt errorCode errorMessage →
        job.status = "running" → job'.status = "queued" → 0 < m) :
    ∃ source target, job.lifecycleStateAt t n = .ok source ∧ job'.lifecycleStateAt t m = .ok target ∧
      Follows t (.job op) job source target := by
  cases hmove with
  | keep =>
      obtain ⟨known, hknown⟩ := hok.lifecycle t n
      refine follows_of_same hknown ?_
      by_cases hq : job.status = "queued"
      · exact lifecycleStateAt_congr (hkept rfl hq)
      · exact lifecycle_of_not_queued hq t n m
  | missDeadline hq hrun hd hlt =>
      obtain rfl := hclock _ rfl
      exact ⟨queued, dlq, lifecycleStateAt_due hq hrun, lifecycleStateAt_dlq rfl,
        Or.inr (Or.inr (.deadlineMissed hd hlt))⟩
  | lease hq hrun =>
      obtain rfl := hclock _ rfl
      exact ⟨queued, running, lifecycleStateAt_due hq hrun, lifecycleStateAt_running rfl _ _, Or.inr (Or.inl rfl)⟩
  | @reap now order _ hexp =>
      obtain rfl : now = t := hclock now rfl
      have hsource := lifecycleStateAt_running (leaseExpired_running hexp) now n
      rw [leaseExpired, Bool.and_eq_true, Option.any_eq_true] at hexp
      obtain ⟨_, expires, hlock, hle⟩ := hexp
      rw [decide_eq_true_eq] at hle
      by_cases hdue : job.runAt ≤ now
      · exact ⟨running, queued, hsource, lifecycleStateAt_due rfl hdue,
          Or.inr (Or.inr (.leaseExpired hlock hle (Or.inl rfl)))⟩
      · have hahead : now < job.runAt := not_le.mp hdue
        have hqueued : (requeuedJob now job).status = "queued" := rfl
        refine ⟨running, _, hsource, lifecycleStateAt_ahead hqueued hahead m, ?_⟩
        -- ahead of `run_at` it is in retry wait if an attempt has failed, else scheduled
        by_cases hm : 0 < m
        · rw [if_pos hm]
          exact Or.inr (Or.inl rfl)
        · rw [if_neg hm]
          exact Or.inr (Or.inr (.leaseExpired hlock hle (Or.inr ⟨rfl, hahead⟩)))
  | succeed hr _ =>
      exact ⟨running, completed, lifecycleStateAt_running hr _ _, lifecycleStateAt_succeeded rfl, Or.inr (Or.inl rfl)⟩
  | succeedBatch hr =>
      exact ⟨running, completed, lifecycleStateAt_running hr _ _, lifecycleStateAt_succeeded rfl, Or.inr (Or.inl rfl)⟩
  | @retry now nextRunAt jobId attemptId workerId errorCode errorMessage latencyMs _ hr _ =>
      have hsource := lifecycleStateAt_running hr t n
      -- a retry that is due at once skips the wait
      by_cases hdue : nextRunAt ≤ t
      · exact ⟨running, queued, hsource, lifecycleStateAt_due rfl hdue, Or.inr (Or.inr (.retriedAtOnce hdue))⟩
      · refine ⟨running, retryWait, hsource, ?_, Or.inr (Or.inl rfl)⟩
        have hm : 0 < m := hretried now jobId attemptId workerId latencyMs nextRunAt errorCode errorMessage rfl hr rfl
        rw [lifecycleStateAt_ahead rfl (not_le.mp hdue) _, if_pos hm]
  | deadLetter hr _ =>
      exact ⟨running, dlq, lifecycleStateAt_running hr _ _, lifecycleStateAt_dlq rfl, Or.inr (Or.inl rfl)⟩
  | extend hr _ =>
      exact ⟨running, running, lifecycleStateAt_running hr _ _, lifecycleStateAt_running hr _ _, Or.inl rfl⟩
  | cancel hst _ =>
      rcases hst with hq | hr
      · obtain ⟨source, hsource, hwaits⟩ := lifecycleStateAt_waiting hq t n
        exact ⟨source, cancelled, hsource, lifecycleStateAt_canceled rfl, Or.inr (Or.inr (.cancelled hwaits))⟩
      · exact ⟨running, cancelled, lifecycleStateAt_running hr _ _, lifecycleStateAt_canceled rfl, Or.inr (Or.inl rfl)⟩

/-- An accepted `reschedule_for_retry` leaves a failed attempt of the job. -/
theorem reschedule_failed {now nextRunAt : DateTime} {jobId attemptId : Uuid} {workerId errorCode errorMessage : String}
    {latencyMs : Int} {job job' : Job} (hst : job.status = "running") (hst' : job'.status = "queued")
    (hjob : s.jobs jobId = some job)
    (hjob' : (rescheduleForRetry s now jobId attemptId workerId latencyMs nextRunAt errorCode
      errorMessage).2.jobs jobId = some job') :
    ∃ a att, (rescheduleForRetry s now jobId attemptId workerId latencyMs nextRunAt errorCode
      errorMessage).2.attempts a = some att ∧ att.jobId = jobId ∧ att.status = "failed" := by
  rcases rescheduleForRetry_accepted s now jobId attemptId workerId latencyMs nextRunAt errorCode errorMessage with
    ⟨hsame, _⟩ | ⟨_, hacc⟩
  · rw [hsame, hjob] at hjob'
    cases hjob'
    rw [hst] at hst'
    simp at hst'
  · obtain ⟨att, _, _, hj, hmap⟩ := hacc.attempt
    exact ⟨attemptId, failedAttempt now latencyMs errorCode errorMessage att,
      by rw [hmap, Function.update_self], hj, rfl⟩

/-- **The backend follows the canonical lifecycle, four exceptions apart.** In every reachable state, for every call
    that comes back and every job known before it: the canonical states of the job before and after the call, derived
    at the call's clock from the stored record and the number of its failed attempts, are equal, or related by
    `can_transition_to`, or off the table in one of the four ways. -/
theorem lifecycle_refinement {call : Call} (h : backendSystem.Reachable s) (hstep : backendSystem.step s call s')
    {t : DateTime} (hclock : ∀ now, call.clock = some now → now = t) {id : Uuid} {job : Job}
    (hget : getJob s id = some job) {before after : List Uuid} (hb : Enumerates s.attempts before)
    (ha : Enumerates s'.attempts after) :
    ∃ job' source target, getJob s' id = some job' ∧
      job.lifecycleStateAt t (failedAttempts s before id) = .ok source ∧
      job'.lifecycleStateAt t (failedAttempts s' after id) = .ok target ∧ Follows t call job source target := by
  obtain ⟨hwf, hk⟩ := backend_invariants h
  -- a record that stays, and is not that of a queued job
  have hstays : job.status = "succeeded" → getJob s' id = some job →
      ∃ job' source target, getJob s' id = some job' ∧
        job.lifecycleStateAt t (failedAttempts s before id) = .ok source ∧
        job'.lifecycleStateAt t (failedAttempts s' after id) = .ok target ∧ Follows t call job source target := by
    intro hst hget'
    exact ⟨job, completed, completed, hget', lifecycleStateAt_succeeded hst, lifecycleStateAt_succeeded hst,
      Or.inl rfl⟩
  rcases getJob_eq_some.mp hget with hjob | ⟨_, harch⟩
  · have hok := hwf.jobOk id job hjob
    rcases backendSystem_step hstep with ⟨op, rfl, hadm, happ⟩ | ⟨_, hsame⟩
    · have hret : (op.apply s).1 = true := by rw [happ]
      have hentry := apply_jobEntry hwf op hadm hret id
      have hattempt := apply_attemptEntry hwf hk op hadm hret
      obtain rfl : (op.apply s).2 = s' := congrArg Prod.snd happ
      cases hentry with
      | @stored _ job' hbefore hafter move =>
          rw [hjob] at hbefore
          cases hbefore
          have hget' : getJob (op.apply s).2 id = some job' := getJob_eq_some.mpr (Or.inl hafter)
          have hkept : job = job' → job.status = "queued" →
              (0 < failedAttempts s before id ↔ 0 < failedAttempts (op.apply s).2 after id) := by
            intro _ hq
            rw [failedAttempts_pos hb, failedAttempts_pos ha]
            exact attempts_of_queued hwf hadm hattempt hjob hq
          have hretried : ∀ now jobId attemptId workerId latencyMs nextRunAt errorCode errorMessage,
              op = .reschedule now jobId attemptId workerId latencyMs nextRunAt errorCode errorMessage →
                job.status = "running" → job'.status = "queued" →
                  0 < failedAttempts (op.apply s).2 after id := by
            rintro now jobId attemptId workerId latencyMs nextRunAt errorCode errorMessage rfl hst hst'
            rw [failedAttempts_pos ha]
            have hid : jobId = id := by
              cases move with
              | keep => rw [hst] at hst'; simp at hst'
              | retry _ hid => exact hid.symm.trans (hwf.jobId _ _ hjob)
            subst hid
            simp only [MemOp.apply, MemOp.finish_snd] at hafter ⊢
            exact reschedule_failed hst hst' hjob hafter
          obtain ⟨source, target, h1, h2, h3⟩ := follows_of_move hclock hok move hkept hretried
          exact ⟨job', source, target, hget', h1, h2, h3⟩
      | absent hbefore hafter => rw [hjob] at hbefore; cases hbefore
      | archived hbefore status hafter kept =>
          rw [hjob] at hbefore
          cases hbefore
          exact hstays status (getJob_eq_some.mpr (Or.inr ⟨hafter, kept⟩))
      | added unused hafter queued => rw [unused.1] at hjob; cases hjob
    · -- a stream call
      have hget' : getJob s' id = some job := by rw [getJob, hsame.jobs, hsame.archive]; exact hget
      have hcount : 0 < failedAttempts s before id ↔ 0 < failedAttempts s' after id := by
        rw [failedAttempts_pos hb, failedAttempts_pos ha, hsame.attempts]
      obtain ⟨known, hknown⟩ := hok.lifecycle t (failedAttempts s before id)
      obtain ⟨source, target, h1, h2, h3⟩ := follows_of_same hknown (lifecycleStateAt_congr hcount)
      exact ⟨job, source, target, hget', h1, h2, h3⟩
  · obtain ⟨_, hst, _⟩ := hwf.archived id job harch
    exact hstays hst (getJob_of_step hwf hstep hget (Or.inl hst))

/-- A job is enqueued under the id 7. -/
def enqueued (job : NewJob) : InnerState := ((Call.job (.enqueue 0 7 [] job)).apply InnerState.init).2

theorem enqueued_reachable (job : NewJob) (h : job.idempotencyKey = none) :
    backendSystem.Reachable (enqueued job) := by
  refine .next (i := .job (.enqueue 0 7 [] job)) (.start rfl) ⟨⟨⟨rfl, rfl⟩, enumerates_nil⟩, Prod.ext ?_ rfl⟩
  simp [Call.apply, MemOp.apply, enqueue, h, MemOp.apply.finish]

/-- Leasing the job takes it from `Queued` to `Running`. -/
theorem lifecycle_refinement_leased : ∃ job' source target,
    getJob ((Call.job (.lease 5 "emails" "w1" 30 10 .fifo)).apply (enqueued welcomeEmail)).2 7 = some job' ∧
      (newEntity 0 7 welcomeEmail).lifecycleStateAt 5 (failedAttempts (enqueued welcomeEmail) [] 7) = .ok source ∧
      job'.lifecycleStateAt 5 (failedAttempts
        ((Call.job (.lease 5 "emails" "w1" 30 10 .fifo)).apply (enqueued welcomeEmail)).2 [] 7) = .ok target ∧
      Follows 5 (.job (.lease 5 "emails" "w1" 30 10 .fifo)) (newEntity 0 7 welcomeEmail) source target :=
  have hstep : backendSystem.step (enqueued welcomeEmail) (.job (.lease 5 "emails" "w1" 30 10 .fifo))
      ((Call.job (.lease 5 "emails" "w1" 30 10 .fifo)).apply (enqueued welcomeEmail)).2 :=
    ⟨trivial, Prod.ext (by decide) rfl⟩
  lifecycle_refinement (enqueued_reachable welcomeEmail rfl) hstep (fun now h => (Option.some.inj h).symm) rfl
    enumerates_nil enumerates_nil

/-- Some run takes the canonical state of the job 7 by this call, at clock `t`, from `source` to `target`, which is
    not in the table. -/
def GoesOffTable (call : Call) (t : DateTime) (order : List Uuid) (source target : JobLifecycleState) : Prop :=
  ∃ s s', backendSystem.Reachable s ∧ backendSystem.step s call s' ∧
    (getJob s 7).map (·.lifecycleStateAt t (failedAttempts s order 7)) = some (.ok source) ∧
    (getJob s' 7).map (·.lifecycleStateAt t (failedAttempts s' order 7)) = some (.ok target) ∧
    source ≠ target ∧ source.canTransitionTo target = false

/-- Each of the four exceptions occurs. The last one needs a clock that went back: the job is reaped before its
    `run_at`. -/
theorem lifecycle_off_table :
    GoesOffTable (.job (.cancel 1 [] 7 none)) 1 [] queued cancelled ∧
    GoesOffTable (.job (.lease 5 "emails" "w1" 30 10 .fifo)) 5 [] queued dlq ∧
    GoesOffTable (.job (.reschedule 8 7 9 "w1" 5 4 "TIMEOUT" "late")) 8 [9] running queued ∧
    GoesOffTable (.job (.reap (-1) [7])) (-1) [] running scheduled := by
  refine ⟨?_, ?_, ?_, ?_⟩
  · exact ⟨enqueued welcomeEmail, _, enqueued_reachable _ rfl, ⟨enumerates_nil, Prod.ext (by decide) rfl⟩,
      by decide, by decide, by decide, by decide⟩
  · exact ⟨enqueued { welcomeEmail with deadlineAt := some 3 }, _, enqueued_reachable _ rfl,
      ⟨trivial, Prod.ext (by decide) rfl⟩, by decide, by decide, by decide, by decide⟩
  · refine ⟨_, _, .next (i := .job (.startAttempts 6 [(7, 9)] "w1"))
      (.next (i := .job (.lease 5 "emails" "w1" 30 10 .fifo)) (enqueued_reachable welcomeEmail rfl)
        ⟨trivial, Prod.ext (by decide) rfl⟩) ⟨⟨by decide, by decide⟩, Prod.ext (by decide) rfl⟩,
      ⟨trivial, Prod.ext (by decide) rfl⟩, by decide, by decide, by decide, by decide⟩
  · refine ⟨_, _, .next (i := .job (.lease 5 "emails" "w1" (-30) 10 .fifo)) (enqueued_reachable welcomeEmail rfl)
      ⟨trivial, Prod.ext (by decide) rfl⟩, ⟨enumerates_singleton (by decide) fun id hne => ?_,
        Prod.ext (by decide) rfl⟩, by decide, by decide, by decide, by decide⟩
    have hjobs : ((Call.job (.lease 5 "emails" "w1" (-30) 10 .fifo)).apply (enqueued welcomeEmail)).2.jobs id =
        Function.update (Function.update (fun _ => none) 7 (some (newEntity 0 7 welcomeEmail)))
          7 (some (leasedJob 5 (-29999999995) "w1" (newEntity 0 7 welcomeEmail))) id := rfl
    rw [hjobs, Function.update_of_ne hne, Function.update_of_ne hne]

end Azums.Memory
