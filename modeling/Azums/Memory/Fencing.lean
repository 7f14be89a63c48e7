import Azums.Memory.Calls
import Azums.Memory.Effects

/-!
# `Memory.Fencing` — stale acknowledgements, and who may have an open attempt

An acknowledgement is accepted for a running attempt of a running job. Two guarantees rest on this.

* **Fencing.** The reaper closes every running attempt of the job it takes back, and no call opens an attempt again.
  So an acknowledgement with such an attempt is refused ever after (`stale_ack_law`). `mark_succeeded` computes the
  next occurrence of a recurring job before it checks anything, though: where that computation leaves `chrono`'s
  range, a stale acknowledgement does not get its error but panics.
* **One open attempt per job.** Every way a lease can end closes an attempt of the job, but only the reaper closes
  all of them, and `start_attempts_batch` opens one without asking for another. In every run without such a second
  start, an open attempt belongs to a running job, under the lease of the attempt's worker, and is the only one of
  its job (`open_attempts_law`).
-/

namespace Azums.Memory

open Function (update)

variable {s s' : InnerState} {now : DateTime}

/-! ## Stale acknowledgements -/

/-- No attempt under this id is running. -/
def Closed (s : InnerState) (a : Uuid) : Prop := ∀ att, s.attempts a = some att → att.status ≠ "running"

/-- The additions that compute the next occurrence of a recurring job stay in `chrono`'s range. -/
def NextInRange (s : InnerState) (jobId : Uuid) : Prop :=
  ∀ job interval, s.jobs jobId = some job → job.recurringIntervalSeconds = some interval →
    (Chrono.addSeconds job.runAt interval).isSome ∧
      ∀ deadline, job.deadlineAt = some deadline → (Chrono.addSeconds deadline interval).isSome

theorem nextOccurrence_isSome {newId : Uuid} {job : Job} {interval : Int} :
    (nextOccurrence now newId job interval).isSome ↔ (Chrono.addSeconds job.runAt interval).isSome ∧
      ∀ deadline, job.deadlineAt = some deadline → (Chrono.addSeconds deadline interval).isSome := by
  unfold nextOccurrence
  cases Chrono.addSeconds job.runAt interval with
  | none => simp
  | some nextRunAt =>
      cases job.deadlineAt with
      | none => simp
      | some deadline => simp

/-- `mark_succeeded` gets to its checks exactly if the next occurrence is in range. -/
theorem recurringJob_isSome (now : DateTime) (newId : Uuid) {jobId : Uuid} :
    (recurringJob s now newId jobId).isSome ↔ NextInRange s jobId := by
  unfold recurringJob NextInRange
  cases hjob : s.jobs jobId with
  | none => simp
  | some job =>
      cases hi : job.recurringIntervalSeconds with
      | none =>
          simp only [hi, Option.isSome_some, true_iff]
          rintro j i hj hi'
          cases hj
          rw [hi] at hi'
          cases hi'
      | some interval =>
          simp only [hi, Option.isSome_map, nextOccurrence_isSome]
          constructor
          · intro h j i hj hi'
            cases hj
            rw [hi] at hi'
            cases hi'
            exact h
          · intro h
            exact h job interval rfl hi

theorem markSucceeded_closed {a : Uuid} (h : Closed s a) (newId jobId : Uuid) (workerId : String)
    (latencyMs : Int) :
    (∃ e, markSucceeded s now newId jobId a workerId latencyMs = (.err e, s)) ↔ NextInRange s jobId := by
  rw [← recurringJob_isSome now newId]
  rcases markSucceeded_cases s now newId jobId a workerId latencyMs with
    ⟨hnone, heq⟩ | ⟨_, hsome, e, heq⟩ | ⟨_, _, att, _, _, ⟨hatt, hrun, _⟩, _⟩
  · rw [heq, hnone]
    simp
  · exact iff_of_true ⟨e, heq⟩ hsome
  · exact absurd hrun (h att hatt)

theorem rescheduleForRetry_closed {a : Uuid} (h : Closed s a) (jobId : Uuid) (workerId : String)
    (latencyMs : Int) (nextRunAt : DateTime) (errorCode errorMessage : String) :
    ∃ e, rescheduleForRetry s now jobId a workerId latencyMs nextRunAt errorCode errorMessage = (.err e, s) := by
  rcases rescheduleForRetry_cases s now jobId a workerId latencyMs nextRunAt errorCode errorMessage with
    ⟨_, hrefused⟩ | ⟨_, att, _, ⟨hatt, hrun, _⟩, _⟩
  · exact hrefused
  · exact absurd hrun (h att hatt)

theorem markDlq_closed {a : Uuid} (h : Closed s a) (jobId : Uuid) (workerId : String) (latencyMs : Int)
    (reasonCode errorCode errorMessage : String) :
    ∃ e, markDlq s now jobId a workerId latencyMs reasonCode errorCode errorMessage = (.err e, s) := by
  rcases markDlq_cases s now jobId a workerId latencyMs reasonCode errorCode errorMessage with
    ⟨_, hrefused⟩ | ⟨_, att, _, ⟨hatt, hrun, _⟩, _⟩
  · exact hrefused
  · exact absurd hrun (h att hatt)

/-- The reaper closes the attempts of every job it takes back. -/
theorem reap_closes (now : DateTime) (h : WellFormed s) {order : List Uuid} (ho : Enumerates s.jobs order) {a : Uuid}
    {att : MemoryAttempt} {job : Job} (hatt : s.attempts a = some att) (hjob : s.jobs att.jobId = some job)
    (hexp : leaseExpired now job = true) : Closed (reapExpiredLocks s now order).2 a := by
  have hin := (mem_expired h ho).mpr ⟨job, hjob, hexp⟩
  have hmap := reap_attempts s now order a
  rw [hatt, Option.map_some] at hmap
  intro att' hatt' hrun
  rw [hmap] at hatt'
  cases hatt'
  by_cases hst : att.status = "running"
  · rw [if_pos ⟨hin, hst⟩] at hrun
    exact absurd hrun (closes_leaseExpiredAttempt hst).not_running
  · rw [if_neg fun hc => hst hc.2] at hrun
    exact hst hrun

/-- No call opens an attempt again. -/
theorem closed_of_step {call : Call} (hwf : WellFormed s) (hk : Keyed s) (hstep : backendSystem.step s call s')
    {a : Uuid} (hdrawn : a ∉ call.drawn) (h : Closed s a) : Closed s' a := by
  intro att hatt hrun
  rcases backendSystem_step hstep with ⟨op, rfl, hadm, happ⟩ | ⟨_, hsame⟩
  · have hentry := apply_attemptEntry hwf hk op hadm (by rw [happ]) a
    rw [happ] at hentry
    exact h att (hentry.open_before hdrawn hatt hrun) hrun
  · rw [hsame.attempts] at hatt
    exact h att hatt hrun

/-- An attempt stays closed through any calls that do not draw its id once more. -/
theorem closed_of_run {calls : List Call} {a : Uuid} (hrun : backendSystem.Run s calls s') :
    backendSystem.Reachable s → (∀ call ∈ calls, a ∉ call.drawn) → Closed s a → Closed s' a := by
  induction hrun with
  | nil => intro _ _ h; exact h
  | cons hstep _ ih =>
      intro hreach hdrawn h
      obtain ⟨hwf, hk⟩ := backend_invariants hreach
      refine ih (hreach.next hstep) (fun call hc => hdrawn call (List.mem_cons_of_mem _ hc)) ?_
      exact closed_of_step hwf hk hstep (hdrawn _ List.mem_cons_self) h

/-- **Stale acknowledgements are fenced off.** Once `reap_expired_locks` has taken back the lease of an attempt's job,
    an acknowledgement that presents the attempt, for whatever job, by whatever worker and after whatever calls, is
    refused with an error and changes nothing. For `mark_succeeded` this needs the next occurrence of the named job to
    be in `chrono`'s range, and holds exactly then. Attempt ids are drawn once: no later call draws this one again. -/
theorem stale_ack_law {s₀ s₁ s₂ : InnerState} {reapNow : DateTime} {order : List Uuid} {calls : List Call}
    {a : Uuid} {att : MemoryAttempt} {job : Job} (hreach : backendSystem.Reachable s₀)
    (hatt : s₀.attempts a = some att) (hjob : s₀.jobs att.jobId = some job)
    (hexp : leaseExpired reapNow job = true)
    (hreap : backendSystem.step s₀ (.job (.reap reapNow order)) s₁) (hrun : backendSystem.Run s₁ calls s₂)
    (hdrawn : ∀ call ∈ calls, a ∉ call.drawn) :
    (∀ now newId jobId workerId latencyMs,
      (∃ e, markSucceeded s₂ now newId jobId a workerId latencyMs = (.err e, s₂)) ↔ NextInRange s₂ jobId) ∧
    (∀ now jobId workerId latencyMs nextRunAt errorCode errorMessage, ∃ e,
      rescheduleForRetry s₂ now jobId a workerId latencyMs nextRunAt errorCode errorMessage = (.err e, s₂)) ∧
    (∀ now jobId workerId latencyMs reasonCode errorCode errorMessage, ∃ e,
      markDlq s₂ now jobId a workerId latencyMs reasonCode errorCode errorMessage = (.err e, s₂)) := by
  -- the reaper closes the attempt together with the lease
  have hclosed₁ : Closed s₁ a := by
    obtain ⟨hadm, happ⟩ := hreap
    have h := reap_closes reapNow (backend_invariants hreach).1 hadm hatt hjob hexp
    have hs : (reapExpiredLocks s₀ reapNow order).2 = s₁ := congrArg Prod.snd happ
    rw [hs] at h
    exact h
  -- and no later call opens it again
  have hclosed : Closed s₂ a := closed_of_run hrun (hreach.next hreap) hdrawn hclosed₁
  refine ⟨?_, ?_, ?_⟩
  · intro now newId jobId workerId latencyMs
    exact markSucceeded_closed hclosed newId jobId workerId latencyMs
  · intro now jobId workerId latencyMs nextRunAt errorCode errorMessage
    exact rescheduleForRetry_closed hclosed jobId workerId latencyMs nextRunAt errorCode errorMessage
  · intro now jobId workerId latencyMs reasonCode errorCode errorMessage
    exact markDlq_closed hclosed jobId workerId latencyMs reasonCode errorCode errorMessage

/-- A recurring job whose interval no `chrono::Duration` can hold. -/
def rareReport : NewJob := { welcomeEmail with recurringIntervalSeconds := some 9223372036854775807 }

/-- A job is leased and an attempt is started. -/
def started (job : NewJob) : InnerState :=
  ((Call.job (.startAttempts 6 [(7, 9)] "w1")).apply ((Call.job (.lease 5 "emails" "w1" 30 10 .fifo)).apply
    ((Call.job (.enqueue 0 7 [] job)).apply InnerState.init).2).2).2

/-- The reaper takes the lease back. -/
def reclaimed (job : NewJob) : InnerState := ((Call.job (.reap 35000000000 [7])).apply (started job)).2

/-- The stale `mark_succeeded` of such a job panics instead of returning an error. -/
theorem stale_ack_panics :
    ((reclaimed rareReport).attempts 9).bind (·.errorCode) = some "LEASE_EXPIRED" ∧
      (markSucceeded (reclaimed rareReport) 36000000000 8 7 9 "w1" 5).1 = .panic ∧
      ¬∃ e, markSucceeded (reclaimed rareReport) 36000000000 8 7 9 "w1" 5 = (.err e, reclaimed rareReport) := by
  have hpanic : (markSucceeded (reclaimed rareReport) 36000000000 8 7 9 "w1" 5).1 = .panic := by decide
  refine ⟨by decide, hpanic, ?_⟩
  rintro ⟨e, he⟩
  rw [he] at hpanic
  cases hpanic

theorem started_reachable : backendSystem.Reachable (started welcomeEmail) :=
  .next (i := .job (.startAttempts 6 [(7, 9)] "w1"))
    (.next (i := .job (.lease 5 "emails" "w1" 30 10 .fifo))
      (.next (i := .job (.enqueue 0 7 [] welcomeEmail)) (.start rfl) ⟨⟨⟨rfl, rfl⟩, enumerates_nil⟩, rfl⟩)
      ⟨trivial, Prod.ext (by decide) rfl⟩)
    ⟨⟨by decide, by decide⟩, Prod.ext (by decide) rfl⟩

/-- The job of `started` is the only one. -/
theorem started_jobs : Enumerates (started welcomeEmail).jobs [7] := by
  refine enumerates_singleton (by decide) fun id hne => ?_
  have hjobs : (started welcomeEmail).jobs id = update (update (fun _ => none) 7 (some (newEntity 0 7 welcomeEmail)))
      7 (some (leasedJob 5 30000000005 "w1" (newEntity 0 7 welcomeEmail))) id := rfl
  rw [hjobs, Function.update_of_ne hne, Function.update_of_ne hne]

/-- The same worker leases the job again and starts a new attempt; the old attempt is refused. -/
theorem stale_ack_refused :
    let s := ((Call.job (.startAttempts 37000000000 [(7, 10)] "w1")).apply
      ((Call.job (.lease 36000000000 "emails" "w1" 30 10 .fifo)).apply (reclaimed welcomeEmail)).2).2
    (s.jobs 7).bind (·.lockedBy) = some "w1" ∧
      ∃ e, markSucceeded s 38000000000 8 7 9 "w1" 5 = (.err e, s) := by
  intro s
  refine ⟨by decide, ?_⟩
  have hreap : backendSystem.step (started welcomeEmail) (.job (.reap 35000000000 [7])) (reclaimed welcomeEmail) :=
    ⟨started_jobs, Prod.ext (by decide) rfl⟩
  have hrun : backendSystem.Run (reclaimed welcomeEmail) [.job (.lease 36000000000 "emails" "w1" 30 10 .fifo),
      .job (.startAttempts 37000000000 [(7, 10)] "w1")] s :=
    .cons ⟨trivial, Prod.ext (by decide) rfl⟩ (.cons ⟨⟨by decide, by decide⟩, Prod.ext (by decide) rfl⟩ (.nil _))
  have hatt : (started welcomeEmail).attempts 9 = some (startedAttempt 6 9 7 1 "w1") := by decide
  have hjob : (started welcomeEmail).jobs 7 = some (leasedJob 5 30000000005 "w1" (newEntity 0 7 welcomeEmail)) := by
    decide
  have hlaw := stale_ack_law started_reachable hatt hjob (by decide) hreap hrun (by decide)
  exact (hlaw.1 38000000000 8 7 "w1" 5).mpr ((recurringJob_isSome 0 8).mp (by decide : (recurringJob s 0 8 7).isSome))

/-! ## Open attempts -/

/-- Who may have an open attempt: a running job, once, under the lease of the attempt's worker. -/
structure OpenAttempts (s : InnerState) : Prop where
  held : ∀ a att, s.attempts a = some att → att.status = "running" →
    ∃ job, s.jobs att.jobId = some job ∧ job.status = "running" ∧ job.lockedBy = some att.workerId
  unique : ∀ a b att att', s.attempts a = some att → s.attempts b = some att' → att.status = "running" →
    att'.status = "running" → att.jobId = att'.jobId → a = b

/-- The call starts no attempt for a job that has an open one, nor two for one job. -/
def NoSecondStart (s : InnerState) : Call → Prop
  | .job (.startAttempts _ requests _) => (requests.map (·.1)).Nodup ∧
      ∀ r ∈ requests, ∀ a att, s.attempts a = some att → att.status = "running" → att.jobId ≠ r.1
  | _ => True

theorem OpenAttempts.init : OpenAttempts InnerState.init where
  held := by intro a att h; cases h
  unique := by intro a b att att' h; cases h

/-- A call that opens nothing: what is open afterwards was open, and its job still runs under the same lease. -/
theorem OpenAttempts.of_kept (h : OpenAttempts s)
    (hkept : ∀ a att, s'.attempts a = some att → att.status = "running" → s.attempts a = some att ∧
      ∀ job, s.jobs att.jobId = some job → job.status = "running" →
        ∃ job', s'.jobs att.jobId = some job' ∧ job'.status = "running" ∧ job'.lockedBy = job.lockedBy) :
    OpenAttempts s' where
  held := by
    intro a att hatt hrun
    obtain ⟨hatt, hjob⟩ := hkept a att hatt hrun
    obtain ⟨job, hj, hst, hby⟩ := h.held a att hatt hrun
    obtain ⟨job', hj', hst', hby'⟩ := hjob job hj hst
    exact ⟨job', hj', hst', hby'.trans hby⟩
  unique := by
    intro a b att att' hatt hatt' hrun hrun' hj
    exact h.unique a b att att' (hkept a att hatt hrun).1 (hkept b att' hatt' hrun').1 hrun hrun' hj

/-- A call that closes no attempt and ends no lease. -/
theorem OpenAttempts.of_entries {op : MemOp} (h : OpenAttempts s) (hentry : ∀ id, JobEntry op s s' id)
    (hattempt : ∀ a, AttemptEntry op s s' a) (hdrawn : op.drawn = [])
    (hmove : ∀ job job' : Job, JobMove op job job' → job.status = "running" →
      job'.status = "running" ∧ job'.lockedBy = job.lockedBy) : OpenAttempts s' := by
  refine h.of_kept fun a att hatt hopen =>
    ⟨(hattempt a).open_before (by rw [hdrawn]; exact List.not_mem_nil) hatt hopen, ?_⟩
  intro job hjob hst
  cases hentry att.jobId with
  | stored before after move =>
      rw [hjob] at before
      cases before
      exact ⟨_, after, hmove _ _ move hst⟩
  | absent before after => rw [hjob] at before; cases before
  | archived before status after kept =>
      rw [hjob] at before
      cases before
      rw [hst] at status
      simp at status
  | added unused after queued => rw [unused.1] at hjob; cases hjob

/-- An accepted acknowledgement closes the one open attempt of its job. -/
theorem OpenAttempts.of_accepted (h : OpenAttempts s) {jobId attemptId : Uuid} {workerId : String}
    {close : MemoryAttempt → MemoryAttempt} (hacc : Accepted s s' jobId attemptId workerId close)
    (hclose : ∀ att : MemoryAttempt, att.status = "running" → Closes att (close att))
    (hjobs : ∀ id job, id ≠ jobId → s.jobs id = some job → s'.jobs id = some job) : OpenAttempts s' := by
  obtain ⟨closing, hclosing, hrun, hj, hmap⟩ := hacc.attempt
  refine h.of_kept fun a att hatt hopen => ?_
  rw [hmap] at hatt
  rcases update_eq_some hatt with ⟨rfl, rfl⟩ | ⟨ha, hold⟩
  · exact absurd hopen (hclose closing hrun).not_running
  · refine ⟨hold, fun job hjob hst => ?_⟩
    -- an open attempt of the same job would be the one just closed
    have hne : att.jobId ≠ jobId := by
      intro he
      exact ha (h.unique a attemptId att closing hold hclosing hopen hrun (he.trans hj.symm))
    exact ⟨job, hjobs _ job hne hjob, hst, rfl⟩

theorem markSucceeded_openAttempts (h : OpenAttempts s) {newId : Uuid} (hfresh : Unused s newId)
    (jobId attemptId : Uuid) (workerId : String) (latencyMs : Int) :
    OpenAttempts (markSucceeded s now newId jobId attemptId workerId latencyMs).2 := by
  rcases markSucceeded_accepted s now newId jobId attemptId workerId latencyMs with ⟨hsame, _⟩ | ⟨hok, hacc⟩
  · rw [hsame]
    exact h
  · refine h.of_accepted hacc (fun att hrun => closes_succeededAttempt hrun _) ?_
    intro id job hne hjob
    rw [← hjob]
    refine (markSucceeded_acked hfresh.1 (Prod.ext hok rfl)).jobs id hne ?_
    rintro rfl
    rw [hfresh.1] at hjob
    cases hjob

theorem markSucceededBatch_openAttempts {workerId : String} (updates : List (DateTime × Uuid × Uuid × Uuid × Int))
    (h : OpenAttempts s) (hnd : (updates.map (·.2.1)).Nodup) (hfresh : ∀ u ∈ updates, Unused s u.2.1) :
    OpenAttempts (markSucceededBatch workerId updates s).2 := by
  obtain ⟨_, hopen, _, _⟩ := markSucceededBatch_keeps (I := fun rest t => OpenAttempts t ∧
    (rest.map (·.2.1)).Nodup ∧ ∀ u ∈ rest, Unused t u.2.1) (by
      rintro now newId jobId attemptId latencyMs rest t ⟨hopen, hnd, hfresh⟩
      obtain ⟨hnotin, hnd⟩ := List.nodup_cons.mp hnd
      exact ⟨markSucceeded_openAttempts hopen (hfresh _ List.mem_cons_self) jobId attemptId workerId latencyMs, hnd,
        markSucceeded_fresh_rest hnotin (fun u hu => hfresh u (List.mem_cons_of_mem _ hu)) _ _ _ _⟩) updates s
    ⟨h, hnd, hfresh⟩
  exact hopen

/-- The reaper closes every open attempt of the jobs it takes back, and leaves the other jobs running. -/
theorem reap_openAttempts (h : OpenAttempts s) (order : List Uuid) :
    OpenAttempts (reapExpiredLocks s now order).2 := by
  have hjobs := (reap_jobs s now order).1
  refine h.of_kept fun a att' hatt' hopen => ?_
  rw [reap_attempts, Option.map_eq_some_iff] at hatt'
  obtain ⟨att, hatt, rfl⟩ := hatt'
  split at hopen
  · rename_i hin
    exact absurd hopen (closes_leaseExpiredAttempt hin.2).not_running
  · rename_i hin
    rw [if_neg hin]
    refine ⟨hatt, fun job hjob hst => ⟨job, ?_, hst, rfl⟩⟩
    rw [hjobs, mapAt_of_not_mem fun hmem => hin ⟨hmem, hopen⟩]
    exact hjob

/-- A fold that takes elements has one if there is one to take. -/
theorem foldl_pick_isSome {α : Type} {f : Option α → α → Option α} (hf : ∀ best a, (f best a).isSome) (l : List α) :
    ∀ best, best.isSome ∨ l ≠ [] → (l.foldl f best).isSome := by
  induction l with
  | nil => intro best h; exact h.resolve_right (fun hne => hne rfl)
  | cons a rest ih => intro best _; exact ih (f best a) (Or.inl (hf best a))

/-- Cancelling a job with an open attempt closes one. -/
theorem latestRunningAttempt_isSome {order : List Uuid} (ho : Enumerates s.attempts order) {a jobId : Uuid}
    {att : MemoryAttempt} (hatt : s.attempts a = some att) (hj : att.jobId = jobId) (hrun : att.status = "running") :
    (latestRunningAttempt s order jobId).isSome := by
  refine foldl_pick_isSome (fun best b => ?_) _ none (Or.inr (List.ne_nil_of_mem (a := att) ?_))
  · cases best with
    | none => rfl
    | some c => simp only; split <;> rfl
  · refine List.mem_filter.mpr ⟨List.mem_filterMap.mpr ⟨a, ?_, hatt⟩, by simp [hj, hrun]⟩
    rw [ho.complete, hatt, Option.isSome_some]

theorem cancelJob_openAttempts (h : OpenAttempts s) (hk : Keyed s) {attemptOrder : List Uuid}
    (ho : Enumerates s.attempts attemptOrder) (jobId : Uuid) (workerId : Option String) :
    OpenAttempts (cancelJob s now attemptOrder jobId workerId).2 := by
  rcases cancelJob_ok s now attemptOrder jobId workerId with ⟨hsame, _⟩ | ⟨job, hjob, _, _, hjobs, _, _, hattempts⟩
  · rw [hsame]
    exact h
  · -- the other jobs keep running; the job itself has no open attempt left
    have hother : ∀ a att, att.status = "running" → s.attempts a = some att → att.jobId ≠ jobId →
        s.attempts a = some att ∧ ∀ job, s.jobs att.jobId = some job → job.status = "running" →
          ∃ job', (cancelJob s now attemptOrder jobId workerId).2.jobs att.jobId = some job' ∧
            job'.status = "running" ∧ job'.lockedBy = job.lockedBy := by
      intro a att _ hatt hne
      refine ⟨hatt, fun j hj hst => ⟨j, ?_, hst, rfl⟩⟩
      rw [hjobs, Function.update_of_ne hne]
      exact hj
    by_cases hst : job.status = "running"
    · rw [if_pos hst] at hattempts
      cases hlatest : latestRunningAttempt s attemptOrder jobId with
      | none =>
          simp only [hlatest] at hattempts
          refine h.of_kept fun a att hatt hopen => ?_
          rw [hattempts] at hatt
          refine hother a att hopen hatt ?_
          intro hj
          have hsome := latestRunningAttempt_isSome ho hatt hj hopen
          rw [hlatest] at hsome
          cases hsome
      | some closing =>
          obtain ⟨⟨b, hb⟩, hj, hrun⟩ := latestRunningAttempt_some hlatest
          have hid : closing.id = b := hk b closing hb
          simp only [hlatest, hid] at hattempts
          refine h.of_kept fun a att hatt hopen => ?_
          rw [hattempts] at hatt
          rcases update_eq_some hatt with ⟨rfl, rfl⟩ | ⟨ha, hold⟩
          · exact absurd hopen (closes_failedAttempt hrun _ _ _).not_running
          · refine hother a att hopen hold ?_
            intro he
            exact ha (h.unique a b att closing hold hb hopen hrun (he.trans hj.symm))
    · rw [if_neg hst] at hattempts
      refine h.of_kept fun a att hatt hopen => ?_
      rw [hattempts] at hatt
      refine hother a att hopen hatt ?_
      rintro rfl
      obtain ⟨j, hj, hrun, _⟩ := h.held a att hatt hopen
      rw [hjob] at hj
      cases hj
      exact hst hrun

/-- Starting attempts where no job that the worker leases has an open one. -/
theorem startAttemptsBatch_openAttempts (h : OpenAttempts s) {requests : List (Uuid × Uuid)} {workerId : String}
    (hnd : (requests.map (·.2)).Nodup) (hdistinct : (requests.map (·.1)).Nodup)
    (hnone : ∀ r ∈ requests, Leased s workerId r.1 → ∀ a att, s.attempts a = some att → att.status = "running" →
      att.jobId ≠ r.1) :
    OpenAttempts (startAttemptsBatch s now requests workerId).2 := by
  have hjobs : (startAttemptsBatch s now requests workerId).2.jobs = s.jobs := (startEach_frame requests s).1
  have hentry := startEach_attempts now workerId requests s hnd
  constructor
  · intro a att hatt hopen
    rw [hjobs]
    -- an open attempt was there before, or was started under the lease that the loop checked
    rcases hentry a with hsame | ⟨jobId, no, job, _, hjob, hst, hby, hafter⟩
    · exact h.held a att (hsame ▸ hatt) hopen
    · have hstart := hafter.symm.trans hatt
      cases hstart
      exact ⟨job, hjob, hst, hby⟩
  · intro a b att att' hatt hatt' hopen hopen' hj
    -- two open attempts of one job: a started one excludes an old one, and a second request for the job
    rcases hentry a with hsame | ⟨jobId, no, job, hin, hjob, hst, hby, hafter⟩
    · rcases hentry b with hsame' | ⟨jobId', no', job', hin', hjob', hst', hby', hafter'⟩
      · exact h.unique a b att att' (hsame ▸ hatt) (hsame' ▸ hatt') hopen hopen' hj
      · have hstart := hafter'.symm.trans hatt'
        cases hstart
        exact absurd hj (hnone _ hin' ⟨job', hjob', hst', hby'⟩ a att (hsame ▸ hatt) hopen)
    · have hstart := hafter.symm.trans hatt
      cases hstart
      rcases hentry b with hsame' | ⟨jobId', no', job', hin', _, _, _, hafter'⟩
      · exact absurd hj.symm (hnone _ hin ⟨job, hjob, hst, hby⟩ b att' (hsame' ▸ hatt') hopen')
      · have hstart' := hafter'.symm.trans hatt'
        cases hstart'
        have hpair := List.inj_on_of_nodup_map hdistinct hin hin' hj
        exact congrArg Prod.snd hpair

/-- **The step lemma.** -/
theorem openAttempts_of_step {call : Call} (hwf : WellFormed s) (hk : Keyed s) (h : OpenAttempts s)
    (hstep : backendSystem.step s call s') (hno : NoSecondStart s call) : OpenAttempts s' := by
  rcases backendSystem_step hstep with ⟨op, rfl, hadm, happ⟩ | ⟨_, hsame⟩
  · have hret : (op.apply s).1 = true := by rw [happ]
    have hentry := apply_jobEntry hwf op hadm hret
    have hattempt := apply_attemptEntry hwf hk op hadm hret
    obtain rfl : (op.apply s).2 = s' := congrArg Prod.snd happ
    -- calls that open and close no attempt keep running jobs running, under the same worker
    cases op with
    | enqueue now newId order job =>
        refine h.of_entries hentry hattempt rfl fun j j' hmove hst => ?_
        cases hmove with
        | keep => exact ⟨hst, rfl⟩
    | lease now queue workerId leaseSeconds batchSize ordering =>
        refine h.of_entries hentry hattempt rfl fun j j' hmove hst => ?_
        cases hmove with
        | keep => exact ⟨hst, rfl⟩
        | missDeadline hq _ _ _ => rw [hst] at hq; simp at hq
        | lease hq _ => rw [hst] at hq; simp at hq
    | reap now order =>
        simp only [MemOp.apply, MemOp.finish_snd]
        exact reap_openAttempts h order
    | startAttempts now requests workerId =>
        simp only [MemOp.apply, MemOp.finish_snd]
        exact startAttemptsBatch_openAttempts h hadm.1 hno.1 fun r hr _ => hno.2 r hr
    | markSucceeded now newId jobId attemptId workerId latencyMs =>
        simp only [MemOp.apply, MemOp.finish_snd]
        exact markSucceeded_openAttempts h hadm jobId attemptId workerId latencyMs
    | markSucceededBatch updates workerId =>
        simp only [MemOp.apply, MemOp.finish_snd]
        exact markSucceededBatch_openAttempts updates h hadm.1 hadm.2
    | reschedule now jobId attemptId workerId latencyMs nextRunAt errorCode errorMessage =>
        simp only [MemOp.apply, MemOp.finish_snd]
        rcases rescheduleForRetry_accepted s now jobId attemptId workerId latencyMs nextRunAt errorCode
          errorMessage with ⟨hsame, _⟩ | ⟨hok, hacc⟩
        · rw [hsame]
          exact h
        · refine h.of_accepted hacc (fun att hrun => closes_failedAttempt hrun _ _ _) fun id job hne hjob => ?_
          rw [← hjob]
          exact (rescheduleForRetry_acked (Prod.ext hok rfl) jobId).jobs id hne hne
    | markDlq now jobId attemptId workerId latencyMs reasonCode errorCode errorMessage =>
        simp only [MemOp.apply, MemOp.finish_snd]
        rcases markDlq_accepted s now jobId attemptId workerId latencyMs reasonCode errorCode errorMessage with
          ⟨hsame, _⟩ | ⟨hok, hacc⟩
        · rw [hsame]
          exact h
        · refine h.of_accepted hacc (fun att hrun => closes_failedAttempt hrun _ _ _) fun id job hne hjob => ?_
          rw [← hjob]
          exact (markDlq_acked (Prod.ext hok rfl) jobId).jobs id hne hne
    | extendLease now jobId workerId leaseSeconds =>
        refine h.of_entries hentry hattempt rfl fun j j' hmove hst => ?_
        cases hmove with
        | keep => exact ⟨hst, rfl⟩
        | extend _ _ => exact ⟨hst, rfl⟩
    | cancel now attemptOrder jobId workerId =>
        simp only [MemOp.apply, MemOp.finish_snd]
        exact cancelJob_openAttempts h hk hadm jobId workerId
    | archive order cutoff limit =>
        refine h.of_entries hentry hattempt rfl fun j j' hmove hst => ?_
        cases hmove with
        | keep => exact ⟨hst, rfl⟩
    | deleteHistory archiveOrder attemptOrder cutoff limit =>
        refine h.of_entries hentry hattempt rfl fun j j' hmove hst => ?_
        cases hmove with
        | keep => exact ⟨hst, rfl⟩
    | replay now newId jobId overrideQueue overrideRunAt =>
        refine h.of_entries hentry hattempt rfl fun j j' hmove hst => ?_
        cases hmove with
        | keep => exact ⟨hst, rfl⟩
  · refine h.of_kept fun a att hatt _ => ?_
    rw [hsame.attempts] at hatt
    refine ⟨hatt, fun job hjob hst => ⟨job, ?_, hst, rfl⟩⟩
    rw [hsame.jobs]
    exact hjob

/-- The backend without second starts. -/
def calmSystem : System InnerState Call := backendSystem.restrict fun s call _ => NoSecondStart s call

theorem calm_reachable (h : calmSystem.Reachable s) : backendSystem.Reachable s := by
  induction h with
  | start hinit => exact .start hinit
  | next _ hstep ih => exact ih.next hstep.1

/-- **Open attempts belong to held leases.** In every run in which no attempt is started for a job that has an open
    one, and none twice in one batch: an attempt with status `running` belongs to a job that is running under the
    lease of the attempt's worker, no job has two of them, and a job that does not run has none. -/
theorem open_attempts_law (h : calmSystem.Reachable s) :
    (∀ a att, s.attempts a = some att → att.status = "running" →
      ∃ job, s.jobs att.jobId = some job ∧ job.status = "running" ∧ job.lockedBy = some att.workerId) ∧
    (∀ a b att att', s.attempts a = some att → s.attempts b = some att' → att.status = "running" →
      att'.status = "running" → att.jobId = att'.jobId → a = b) ∧
    ∀ job, getJob s job.id = some job → job.status ≠ "running" →
      ∀ a att, s.attempts a = some att → att.jobId = job.id → att.status ≠ "running" := by
  have hinv : OpenAttempts s := by
    refine h.invariant (I := OpenAttempts) ?_ ?_
    · rintro s rfl
      exact OpenAttempts.init
    · rintro s call s' hreach hopen ⟨hstep, hno⟩
      obtain ⟨hwf, hk⟩ := backend_invariants (calm_reachable hreach)
      exact openAttempts_of_step hwf hk hopen hstep hno
  refine ⟨hinv.held, hinv.unique, ?_⟩
  intro job hget hst a att hatt hj hrun
  obtain ⟨j, hjob, hstj, _⟩ := hinv.held a att hatt hrun
  rw [hj] at hjob
  rw [getJob, hjob, Option.some_or] at hget
  cases hget
  exact hst hstj

/-- An enqueued job is leased and one attempt is started: the open attempt is the worker's. -/
theorem open_attempts_law_started : ∃ job, (started welcomeEmail).jobs 7 = some job ∧ job.status = "running" ∧
    job.lockedBy = some "w1" := by
  have hreach : calmSystem.Reachable (started welcomeEmail) := by
    refine .next (i := .job (.startAttempts 6 [(7, 9)] "w1"))
      (.next (i := .job (.lease 5 "emails" "w1" 30 10 .fifo))
        (.next (i := .job (.enqueue 0 7 [] welcomeEmail)) (.start rfl)
          ⟨⟨⟨⟨rfl, rfl⟩, enumerates_nil⟩, rfl⟩, trivial⟩)
        ⟨⟨trivial, Prod.ext (by decide) rfl⟩, trivial⟩)
      ⟨⟨⟨by decide, by decide⟩, Prod.ext (by decide) rfl⟩, by decide, ?_⟩
    -- no attempt has been started yet
    intro r _ a att hatt
    cases hatt
  exact (open_attempts_law hreach).1 9 (startedAttempt 6 9 7 1 "w1") (by decide) rfl

/-- Two attempts of one job are started under one lease, and the first is acknowledged. -/
def leftOpen : InnerState :=
  ((Call.job (.markSucceeded 8 8 7 9 "w1" 5)).apply
    ((Call.job (.startAttempts 7 [(7, 10)] "w1")).apply (started welcomeEmail)).2).2

theorem leftOpen_reachable : backendSystem.Reachable leftOpen :=
  .next (i := .job (.markSucceeded 8 8 7 9 "w1" 5))
    (.next (i := .job (.startAttempts 7 [(7, 10)] "w1")) started_reachable
      ⟨⟨by decide, by decide⟩, Prod.ext (by decide) rfl⟩)
    ⟨⟨by decide, by decide⟩, Prod.ext (by decide) rfl⟩

/-- The job has succeeded, and its second attempt is still running. -/
theorem open_attempt_left : (leftOpen.jobs 7).map (·.status) = some "succeeded" ∧
    (leftOpen.attempts 10).map (fun att => (att.status, att.jobId)) = some ("running", 7) ∧
    ¬∀ s, backendSystem.Reachable s → ∀ a att, s.attempts a = some att → att.status = "running" →
      ∃ job, s.jobs att.jobId = some job ∧ job.status = "running" ∧ job.lockedBy = some att.workerId := by
  have hst : (leftOpen.jobs 7).map (·.status) = some "succeeded" := by decide
  refine ⟨hst, by decide, ?_⟩
  intro h
  obtain ⟨job, hjob, hrun, _⟩ := h leftOpen leftOpen_reachable 10 (startedAttempt 7 10 7 2 "w1") (by decide) rfl
  have hjob' : leftOpen.jobs 7 = some job := hjob
  rw [hjob', Option.map_some, hrun] at hst
  exact absurd (Option.some.inj hst) (by decide)

end Azums.Memory
