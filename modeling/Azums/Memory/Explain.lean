import Azums.Lib.Log
import Azums.Lib.OrderBy
import Azums.Memory.Created
import Azums.Memory.Fencing
import Azums.Memory.Registry

/-!
# `Memory.Explain` — the explanation of a job is a log

`explain_job` tells a job's story: one event for its enqueueing, and one for each attempt in the order of their numbers. The
attempts come out of a `HashMap`, the numbers out of a counter beside it, and the end of an attempt is written by whichever
call closes it.

`explain_law` says what the reader of two explanations can rely on. The order of the map does not show. What an explanation
says of itself is true of its events. And as long as no history is deleted, the later explanation extends the earlier one:
an event keeps its place, it changes only when its attempt ends, and what is new comes after it.
-/

namespace Azums

open Log (Extends)

/-! ## The explanation of a job -/

/-- `JobObservationEvent`. -/
structure JobObservationEvent where
  at_ : DateTime
  jobId : Uuid
  attempt : Option Int
  workerId : Option String
  queue : String
  durationMs : Option Int
  status : String
  retryCount : Int
  error : Option String
  traceId : Option String
deriving DecidableEq

/-- `JobExplanation`. -/
structure JobExplanation where
  jobId : Uuid
  jobType : String
  queue : String
  status : String
  retryCount : Int
  lastWorkerId : Option String
  lastError : Option String
  traceId : Option String
  events : List JobObservationEvent
  summary : String
deriving DecidableEq

namespace Memory

open Function (update)

variable {s s' : InnerState} {id : Uuid}

/-- `attempt_error`. -/
def attemptError (attempt : MemoryAttempt) : Option String :=
  match attempt.errorCode, attempt.errorMessage with
  | some code, some message => some s!"{code}: {message}"
  | some code, none => some code
  | none, some message => some message
  | none, none => none

/-- The attempts of a job, as `explain_job` collects and sorts them. -/
def jobAttempts (s : InnerState) (order : List Uuid) (jobId : Uuid) : List MemoryAttempt :=
  ((order.filterMap s.attempts).filter (fun attempt => attempt.jobId == jobId)).insertionSort
    (fun a b => a.attemptNo ≤ b.attemptNo)

section Explanation

-- how `chrono` displays an instant, and what `trace_id_from_job` finds in a payload
variable (display : DateTime → String) (traceIdOf : Value → Option String)

/-- `job_summary`. -/
def jobSummary (now : DateTime) (job : Job) (attempts : List MemoryAttempt) : String :=
  let attemptCount := attempts.length
  match job.status with
  | "queued" =>
      if job.runAt > now then s!"Job is waiting until {display job.runAt}."
      else "Job is queued and eligible when ordering and priority allow it."
  | "running" =>
      match job.lockedBy with
      | some workerId => s!"Job is running on worker {workerId}."
      | none => "Job is running without a recorded worker identity."
  | "succeeded" | "completed" => s!"Job completed after {attemptCount} attempt(s)."
  | "dlq" =>
      let reason := job.dlqReasonCode.getD "UNKNOWN"
      s!"Job is in DLQ after {attemptCount} attempt(s): {reason}."
  | "canceled" | "cancelled" => "Job was cancelled."
  | other => s!"Job is in backend-specific status '{other}'."

/-- The event of the enqueueing. -/
def queuedEvent (jobId : Uuid) (job : Job) : JobObservationEvent :=
  { at_ := job.createdAt
    jobId := jobId
    attempt := none
    workerId := none
    queue := job.queue
    durationMs := none
    status := "queued"
    retryCount := 0
    error := none
    traceId := traceIdOf job.payload }

/-- The event of an attempt. -/
def attemptEvent (jobId : Uuid) (job : Job) (attempt : MemoryAttempt) : JobObservationEvent :=
  { at_ := attempt.finishedAt.getD attempt.startedAt
    jobId := jobId
    attempt := some attempt.attemptNo
    workerId := some attempt.workerId
    queue := job.queue
    durationMs := attempt.latencyMs
    status := attempt.status
    retryCount := max (attempt.attemptNo - 1) 0
    error := attemptError attempt
    traceId := traceIdOf job.payload }

/-- The explanation of a job with these attempts. -/
def explanation (now : DateTime) (jobId : Uuid) (job : Job) (attempts : List MemoryAttempt) : JobExplanation :=
  { jobId := jobId
    jobType := job.jobType
    queue := job.queue
    status := job.status
    retryCount := (attempts.filter (fun attempt => attempt.status == "failed")).length
    lastWorkerId := attempts.getLast?.map (·.workerId)
    lastError := attempts.reverse.findSome? attemptError
    traceId := traceIdOf job.payload
    events := queuedEvent traceIdOf jobId job :: attempts.map (attemptEvent traceIdOf jobId job)
    summary := jobSummary display now job attempts }

/-- `explain_job`. -/
def explainJob (s : InnerState) (now : DateTime) (order : List Uuid) (jobId : Uuid) : Option JobExplanation :=
  (getJob s jobId).map (fun job => explanation display traceIdOf now jobId job (jobAttempts s order jobId))

end Explanation

/-! ## What becomes of an attempt -/

/-- An attempt later: as it was, or ended. -/
inductive Progress : MemoryAttempt → MemoryAttempt → Prop where
  | same (att : MemoryAttempt) : Progress att att
  | succeeded {att : MemoryAttempt} (now : DateTime) (latencyMs : Int) : att.status = "running" →
      Progress att (succeededAttempt now latencyMs att)
  | failed {att : MemoryAttempt} (now : DateTime) (latencyMs : Int) (errorCode errorMessage : String) :
      att.status = "running" → Progress att (failedAttempt now latencyMs errorCode errorMessage att)

namespace Progress

variable {att att' att'' : MemoryAttempt}

/-- An attempt ends once. -/
theorem trans (h : Progress att att') (h' : Progress att' att'') : Progress att att'' := by
  cases h with
  | same => exact h'
  | succeeded now latencyMs hrun =>
      cases h' with
      | same => exact .succeeded now latencyMs hrun
      | succeeded _ _ hagain => simp [succeededAttempt] at hagain
      | failed _ _ _ _ hagain => simp [succeededAttempt] at hagain
  | failed now latencyMs errorCode errorMessage hrun =>
      cases h' with
      | same => exact .failed now latencyMs errorCode errorMessage hrun
      | succeeded _ _ hagain => simp [failedAttempt] at hagain
      | failed _ _ _ _ hagain => simp [failedAttempt] at hagain

theorem id_eq (h : Progress att att') : att'.id = att.id := by cases h <;> rfl
theorem jobId_eq (h : Progress att att') : att'.jobId = att.jobId := by cases h <;> rfl
theorem attemptNo_eq (h : Progress att att') : att'.attemptNo = att.attemptNo := by cases h <;> rfl

end Progress

/-- What the fields of an attempt say of its end agrees with its status. -/
structure Coherent (att : MemoryAttempt) : Prop where
  status : att.status = "running" ∨ att.status = "succeeded" ∨ att.status = "failed"
  latency : att.latencyMs.isSome ↔ att.status = "succeeded" ∨ att.status = "failed"
  error : (attemptError att).isSome ↔ att.status = "failed"

theorem startedAttempt_coherent (now : DateTime) (a jobId : Uuid) (attemptNo : Int) (workerId : String) :
    Coherent (startedAttempt now a jobId attemptNo workerId) where
  status := Or.inl rfl
  latency := by simp [startedAttempt]
  error := by simp [startedAttempt, attemptError]

theorem Coherent.progress {att att' : MemoryAttempt} (h : Coherent att) (hp : Progress att att') : Coherent att' := by
  cases hp with
  | same => exact h
  | succeeded now latencyMs hrun =>
      have herror : (attemptError att).isSome = false := by
        rw [Bool.eq_false_iff, ne_eq, h.error, hrun]
        decide
      refine ⟨Or.inr (Or.inl rfl), by simp [succeededAttempt], ?_⟩
      exact iff_of_false (Bool.eq_false_iff.mp herror) (by simp [succeededAttempt])
  | failed now latencyMs errorCode errorMessage hrun =>
      exact ⟨Or.inr (Or.inr rfl), by simp [failedAttempt], by simp [failedAttempt, attemptError]⟩

/-! ## What a call makes of the attempts -/

/-- No attempt is lost, each has made progress, and every new one has a number beyond those given before. -/
structure AttemptsGrew (s s' : InnerState) : Prop where
  kept : ∀ a att, s.attempts a = some att → ∃ att', s'.attempts a = some att' ∧ Progress att att'
  fresh : ∀ a att', s'.attempts a = some att' → s.attempts a = none → attemptCount s att'.jobId < att'.attemptNo ∧
    ∃ now workerId, Progress (startedAttempt now a att'.jobId att'.attemptNo workerId) att'
  counts : ∀ jobId, attemptCount s jobId ≤ attemptCount s' jobId

namespace AttemptsGrew

theorem of_eq (hcounts : s'.attemptCounts = s.attemptCounts) (hattempts : s'.attempts = s.attempts) :
    AttemptsGrew s s' where
  kept := fun a att hatt => ⟨att, by rw [hattempts, hatt], .same att⟩
  fresh := by
    intro a att' hatt' hnone
    rw [hattempts, hnone] at hatt'
    cases hatt'
  counts := fun jobId => by rw [attemptCount, attemptCount, hcounts]

/-- One attempt makes progress. -/
theorem of_progress {a : Uuid} {att att' : MemoryAttempt} (hatt : s.attempts a = some att) (hp : Progress att att')
    (hcounts : s'.attemptCounts = s.attemptCounts) (hattempts : s'.attempts = update s.attempts a (some att')) :
    AttemptsGrew s s' where
  kept := by
    intro b before hb
    by_cases hba : b = a
    · subst hba
      rw [hatt] at hb
      cases hb
      exact ⟨att', by rw [hattempts, Function.update_self], hp⟩
    · exact ⟨before, by rw [hattempts, Function.update_of_ne hba, hb], .same before⟩
  fresh := by
    intro b after hb hnone
    rw [hattempts] at hb
    rcases update_eq_some hb with ⟨rfl, _⟩ | ⟨_, hold⟩
    · rw [hatt] at hnone; cases hnone
    · rw [hnone] at hold; cases hold
  counts := fun jobId => by rw [attemptCount, attemptCount, hcounts]

theorem refl (s : InnerState) : AttemptsGrew s s := of_eq rfl rfl

theorem trans {s'' : InnerState} (h : AttemptsGrew s s') (h' : AttemptsGrew s' s'') : AttemptsGrew s s'' where
  kept := by
    intro a att hatt
    obtain ⟨att', hatt', hp⟩ := h.kept a att hatt
    obtain ⟨att'', hatt'', hp'⟩ := h'.kept a att' hatt'
    exact ⟨att'', hatt'', hp.trans hp'⟩
  fresh := by
    intro a att'' hatt'' hnone
    cases hatt' : s'.attempts a with
    | none =>
        obtain ⟨hlt, hstarted⟩ := h'.fresh a att'' hatt'' hatt'
        exact ⟨lt_of_le_of_lt (h.counts _) hlt, hstarted⟩
    | some att' =>
        obtain ⟨att₂, hatt₂, hp⟩ := h'.kept a att' hatt'
        rw [hatt''] at hatt₂
        cases hatt₂
        obtain ⟨hlt, now, workerId, hstarted⟩ := h.fresh a att' hatt' hnone
        rw [hp.jobId_eq, hp.attemptNo_eq]
        exact ⟨hlt, now, workerId, hstarted.trans hp⟩
  counts := fun jobId => le_trans (h.counts jobId) (h'.counts jobId)

/-- A new attempt takes the next number. -/
theorem record {attemptId : Uuid} (hnew : s.attempts attemptId = none) (now : DateTime) (workerId : String)
    (jobId : Uuid) : AttemptsGrew s (recordAttempt s now workerId jobId attemptId (attemptCount s jobId + 1)) where
  kept := by
    intro a att hatt
    have hne : a ≠ attemptId := by
      rintro rfl
      rw [hnew] at hatt
      cases hatt
    exact ⟨att, (Function.update_of_ne hne ..).trans hatt, .same att⟩
  fresh := by
    intro a att' hatt' hnone
    have hset : update s.attempts attemptId
        (some (startedAttempt now attemptId jobId (attemptCount s jobId + 1) workerId)) a = some att' := hatt'
    rcases update_eq_some hset with ⟨rfl, rfl⟩ | ⟨_, hold⟩
    · exact ⟨Int.lt_succ _, now, workerId, .same _⟩
    · rw [hnone] at hold; cases hold
  counts := by
    intro id
    rw [recordAttempt_count]
    split
    · rename_i hid
      subst hid
      exact (Int.lt_succ _).le
    · exact le_refl _

end AttemptsGrew

theorem Accepted.attemptsGrew {jobId attemptId : Uuid} {workerId : String} {close : MemoryAttempt → MemoryAttempt}
    (h : Accepted s s' jobId attemptId workerId close)
    (hclose : ∀ att : MemoryAttempt, att.status = "running" → Progress att (close att)) : AttemptsGrew s s' := by
  obtain ⟨att, hatt, hrun, _, hmap⟩ := h.attempt
  exact .of_progress hatt (hclose att hrun) h.attemptCounts hmap

theorem markSucceeded_attemptsGrew (s : InnerState) (now : DateTime) (newId jobId attemptId : Uuid)
    (workerId : String) (latencyMs : Int) :
    AttemptsGrew s (markSucceeded s now newId jobId attemptId workerId latencyMs).2 := by
  rcases markSucceeded_accepted s now newId jobId attemptId workerId latencyMs with ⟨hsame, _⟩ | ⟨_, hacc⟩
  · rw [hsame]
    exact .refl s
  · exact hacc.attemptsGrew fun att hrun => .succeeded now latencyMs hrun

theorem reap_attemptsGrew (s : InnerState) (now : DateTime) (order : List Uuid) :
    AttemptsGrew s (reapExpiredLocks s now order).2 where
  kept := by
    intro a att hatt
    rw [reap_attempts, hatt, Option.map_some]
    refine ⟨_, rfl, ?_⟩
    split
    · rename_i h
      exact .failed now 0 "LEASE_EXPIRED" "worker lease expired before ACK" h.2
    · exact .same att
  fresh := by
    intro a att' hatt' hnone
    rw [reap_attempts, hnone] at hatt'
    cases hatt'
  counts := by
    intro jobId
    rw [attemptCount, attemptCount, (reap_jobs s now order).2.attemptCounts]
    exact le_refl _

theorem cancelJob_attemptsGrew (hk : Keyed s) (now : DateTime) (attemptOrder : List Uuid) (jobId : Uuid)
    (workerId : Option String) : AttemptsGrew s (cancelJob s now attemptOrder jobId workerId).2 := by
  rcases cancelJob_ok s now attemptOrder jobId workerId with
    ⟨hsame, _⟩ | ⟨job, _, _, _, _, _, hcounts, hattempts⟩
  · rw [hsame]
    exact .refl s
  · by_cases hst : job.status = "running"
    · rw [if_pos hst] at hattempts
      cases hlatest : latestRunningAttempt s attemptOrder jobId with
      | none => exact .of_eq hcounts (by simpa only [hlatest] using hattempts)
      | some att =>
          obtain ⟨⟨a, hatt⟩, _, hrun⟩ := latestRunningAttempt_some hlatest
          simp only [hlatest, hk a att hatt] at hattempts
          exact .of_progress hatt (.failed now 0 "CANCELLED" "job cancelled" hrun) hcounts hattempts
    · rw [if_neg hst] at hattempts
      exact .of_eq hcounts hattempts

/-- The loop of `start_attempts_batch`, however far it gets. -/
theorem startEach_attemptsGrew (now : DateTime) (workerId : String) (requests : List (Uuid × Uuid)) :
    ∀ s : InnerState, (requests.map (·.2)).Nodup → (∀ r ∈ requests, s.attempts r.2 = none) →
      AttemptsGrew s (startEach now workerId requests s).2 := by
  induction requests with
  | nil => intro s _ _; exact .refl s
  | cons request rest ih =>
      intro s hnd hnew
      obtain ⟨jobId, attemptId⟩ := request
      obtain ⟨hnotin, hnd⟩ := List.nodup_cons.mp hnd
      by_cases hl : Startable s workerId jobId
      · rw [startEach_cons now attemptId rest hl, prependAttempt_snd]
        refine (AttemptsGrew.record (hnew _ List.mem_cons_self) now workerId jobId).trans (ih _ hnd fun r hr => ?_)
        have hne : r.2 ≠ attemptId := fun heq => hnotin (List.mem_map.mpr ⟨r, hr, heq⟩)
        exact (Function.update_of_ne hne ..).trans (hnew r (List.mem_cons_of_mem _ hr))
      · obtain ⟨_, hm, _⟩ := startEach_stops now attemptId rest hl
        rw [hm]
        exact .refl s

/-- The call deletes attempts. -/
def Call.DeletesHistory (call : Call) : Prop :=
  ∃ archiveOrder attemptOrder cutoff limit, call = .job (.deleteHistory archiveOrder attemptOrder cutoff limit)

/-- **A call that deletes no history makes the attempts grow.** -/
theorem apply_attemptsGrew (hk : Keyed s) (op : MemOp) (hadm : op.Admissible s) (hret : (op.apply s).1 = true)
    (hkeep : ¬(Call.job op).DeletesHistory) : AttemptsGrew s (op.apply s).2 := by
  cases op with
  | enqueue now newId order new =>
      have honly := enqueue_onlyJobs s now newId order new
      simp only [MemOp.apply, MemOp.finish_snd]
      exact .of_eq honly.attemptCounts honly.attempts
  | lease now queue workerId leaseSeconds batchSize ordering =>
      obtain ⟨_, _, _, honly⟩ := lease_jobs queue workerId leaseSeconds batchSize ordering (MemOp.finish_fst hret)
      simp only [MemOp.apply, MemOp.finish_snd]
      exact .of_eq honly.attemptCounts honly.attempts
  | reap now order =>
      simp only [MemOp.apply, MemOp.finish_snd]
      exact reap_attemptsGrew s now order
  | startAttempts now requests workerId =>
      simp only [MemOp.apply, MemOp.finish_snd]
      exact startEach_attemptsGrew now workerId requests s hadm.1 hadm.2
  | markSucceeded now newId jobId attemptId workerId latencyMs =>
      simp only [MemOp.apply, MemOp.finish_snd]
      exact markSucceeded_attemptsGrew s now newId jobId attemptId workerId latencyMs
  | markSucceededBatch updates workerId =>
      simp only [MemOp.apply, MemOp.finish_snd]
      obtain ⟨_, hgrew⟩ := @markSucceededBatch_keeps (fun _ t => AttemptsGrew s t) workerId
        (fun now newId jobId attemptId latencyMs _ t h =>
          h.trans (markSucceeded_attemptsGrew t now newId jobId attemptId workerId latencyMs)) updates s (.refl s)
      exact hgrew
  | reschedule now jobId attemptId workerId latencyMs nextRunAt errorCode errorMessage =>
      simp only [MemOp.apply, MemOp.finish_snd]
      rcases rescheduleForRetry_accepted s now jobId attemptId workerId latencyMs nextRunAt errorCode
        errorMessage with ⟨hsame, _⟩ | ⟨_, hacc⟩
      · rw [hsame]; exact .refl s
      · exact hacc.attemptsGrew fun att hrun => .failed now latencyMs errorCode errorMessage hrun
  | markDlq now jobId attemptId workerId latencyMs reasonCode errorCode errorMessage =>
      simp only [MemOp.apply, MemOp.finish_snd]
      rcases markDlq_accepted s now jobId attemptId workerId latencyMs reasonCode errorCode errorMessage with
        ⟨hsame, _⟩ | ⟨_, hacc⟩
      · rw [hsame]; exact .refl s
      · exact hacc.attemptsGrew fun att hrun => .failed now latencyMs errorCode errorMessage hrun
  | extendLease now jobId workerId leaseSeconds =>
      have honly := extendLease_onlyJobs s now jobId workerId leaseSeconds
      simp only [MemOp.apply, MemOp.finish_snd]
      exact .of_eq honly.attemptCounts honly.attempts
  | cancel now attemptOrder jobId workerId =>
      simp only [MemOp.apply, MemOp.finish_snd]
      exact cancelJob_attemptsGrew hk now attemptOrder jobId workerId
  | archive order cutoff limit =>
      simp only [MemOp.apply, MemOp.finish_snd]
      exact .of_eq (archive_foldl_attempts _ s).2 (archive_foldl_attempts _ s).1
  | deleteHistory archiveOrder attemptOrder cutoff limit => exact absurd ⟨_, _, _, _, rfl⟩ hkeep
  | replay now newId jobId overrideQueue overrideRunAt =>
      have honly := replayJob_onlyJobs s now newId jobId overrideQueue overrideRunAt
      simp only [MemOp.apply, MemOp.finish_snd]
      exact .of_eq honly.attemptCounts honly.attempts

theorem attemptsGrew_step {call : Call} (hk : Keyed s) (hstep : backendSystem.step s call s')
    (hkeep : ¬call.DeletesHistory) : AttemptsGrew s s' := by
  rcases backendSystem_step hstep with ⟨op, rfl, hadm, happ⟩ | ⟨_, hsame⟩
  · have hgrew := apply_attemptsGrew hk op hadm (by rw [happ]) hkeep
    rwa [happ] at hgrew
  · exact .of_eq hsame.attemptCounts hsame.attempts

/-- **The attempts grow over a run.** -/
theorem attemptsGrew_run {calls : List Call} (hrun : backendSystem.Run s calls s') :
    backendSystem.Reachable s → (∀ call ∈ calls, ¬call.DeletesHistory) → AttemptsGrew s s' := by
  induction hrun with
  | nil => intro _ _; exact .refl _
  | cons hstep _ ih =>
      intro hreach hkeep
      have hfirst := attemptsGrew_step (backend_invariants hreach).2 hstep (hkeep _ List.mem_cons_self)
      exact hfirst.trans (ih (hreach.next hstep) fun call hc => hkeep call (List.mem_cons_of_mem _ hc))

/-! ## The attempts of a reachable state -/

/-- What is true of every attempt that a run stores. -/
structure AttemptsSound (s : InnerState) : Prop where
  coherent : ∀ a att, s.attempts a = some att → Coherent att
  bound : ∀ a att, s.attempts a = some att → att.attemptNo ≤ attemptCount s att.jobId
  unique : ∀ a b att att', s.attempts a = some att → s.attempts b = some att' → att.jobId = att'.jobId →
    att.attemptNo = att'.attemptNo → a = b

theorem mem_countedUp {count : Nat} : ∀ {n : Int}, n ∈ countedUp count → n ≤ count := by
  induction count with
  | zero => intro n h; cases h
  | succ count ih =>
      intro n h
      rw [countedUp_succ, List.mem_append, List.mem_singleton] at h
      rcases h with h | rfl
      · have hle := ih h
        omega
      · omega

theorem countedUp_nodup (count : Nat) : (countedUp count).Nodup := by
  induction count with
  | zero => exact List.nodup_nil
  | succ count ih =>
      rw [countedUp_succ, List.nodup_append]
      refine ⟨ih, List.nodup_singleton _, fun n hn m hm => ?_⟩
      have hle := mem_countedUp hn
      rw [List.mem_singleton] at hm
      omega

/-- Deleting history leaves the attempts that it does not delete as they were. -/
theorem deleteHistory_attempts {archiveOrder attemptOrder : List Uuid} {cutoff : DateTime} {limit : Int} {a : Uuid}
    {att : MemoryAttempt}
    (h : (deleteHistoryForSucceededOlderThan s archiveOrder attemptOrder cutoff limit).2.attempts a = some att) :
    s.attempts a = some att := by
  have hafter := (foldl_erase _ s.attempts a).symm.trans h
  split at hafter
  · cases hafter
  · exact hafter

theorem reachable_coherent (hs : backendSystem.Reachable s) : ∀ a att, s.attempts a = some att → Coherent att := by
  refine hs.invariant (I := fun s => ∀ a att, s.attempts a = some att → Coherent att) ?_ ?_
  · rintro s rfl a att hatt
    cases hatt
  · intro s call s' hs ih hstep a att' hatt'
    by_cases hkeep : call.DeletesHistory
    · obtain ⟨archiveOrder, attemptOrder, cutoff, limit, rfl⟩ := hkeep
      obtain ⟨_, rfl⟩ := Prod.mk.inj hstep.2
      exact ih a att' (deleteHistory_attempts hatt')
    · have hgrew := attemptsGrew_step (backend_invariants hs).2 hstep hkeep
      cases hatt : s.attempts a with
      | none =>
          obtain ⟨_, now, workerId, hp⟩ := hgrew.fresh a att' hatt' hatt
          exact (startedAttempt_coherent now a _ _ workerId).progress hp
      | some att =>
          obtain ⟨att₂, hatt₂, hp⟩ := hgrew.kept a att hatt
          rw [hatt'] at hatt₂
          cases hatt₂
          exact (ih a att hatt).progress hp

/-- The record of a run has every attempt under its number, and no number of a job twice. -/
theorem reachable_attemptsSound (hs : backendSystem.Reachable s) : AttemptsSound s := by
  obtain ⟨created, hrec⟩ := recorded_of_reachable hs
  have hrecorded := reachable_recorded hrec
  refine ⟨reachable_coherent hs, fun a att hatt => ?_, fun a b att att' hatt hatt' hj hno => ?_⟩
  · obtain ⟨c, hc, _, hcj, hcno⟩ := hrecorded.stored a att hatt
    obtain ⟨count, hcount⟩ := hrecorded.counting.numbers att.jobId
    have hin : att.attemptNo ∈ numbersGiven created att.jobId :=
      List.mem_map.mpr ⟨c, List.mem_filter.mpr ⟨hc, by simp [hcj]⟩, hcno⟩
    rw [attemptCount, hrecorded.counting.counter, hcount, countedUp_getLast]
    exact mem_countedUp (hcount ▸ hin)
  · obtain ⟨c, hc, hca, hcj, hcno⟩ := hrecorded.stored a att hatt
    obtain ⟨d, hd, hdb, hdj, hdno⟩ := hrecorded.stored b att' hatt'
    obtain ⟨count, hcount⟩ := hrecorded.counting.numbers att.jobId
    have hnodup : (numbersGiven created att.jobId).Nodup := hcount ▸ countedUp_nodup count
    have hcd : c = d := by
      refine List.inj_on_of_nodup_map hnodup (List.mem_filter.mpr ⟨hc, ?_⟩) (List.mem_filter.mpr ⟨hd, ?_⟩) ?_
      · simp [hcj]
      · simp [hdj, hj]
      · rw [hcno, hdno, hno]
    rw [← hca, ← hdb, hcd]

/-! ## The list of a job's attempts -/

section List

variable {order order' : List Uuid}

theorem mem_jobAttempts (ho : Enumerates s.attempts order) {att : MemoryAttempt} :
    att ∈ jobAttempts s order id ↔ (∃ a, s.attempts a = some att) ∧ att.jobId = id := by
  rw [jobAttempts, List.mem_insertionSort, List.mem_filter, List.mem_filterMap, beq_iff_eq]
  constructor
  · rintro ⟨⟨a, _, hatt⟩, hj⟩
    exact ⟨⟨a, hatt⟩, hj⟩
  · rintro ⟨⟨a, hatt⟩, hj⟩
    exact ⟨⟨a, (ho.complete a).mpr (by rw [hatt]; rfl), hatt⟩, hj⟩

theorem jobAttempts_nodup (hk : Keyed s) (ho : Enumerates s.attempts order) : (jobAttempts s order id).Nodup := by
  rw [jobAttempts, (List.perm_insertionSort _ _).nodup_iff]
  refine List.Nodup.filter _ (ho.nodup.filterMap fun a b att ha hb => ?_)
  rw [← hk a att ha, ← hk b att hb]

/-- The numbers go up. -/
theorem jobAttempts_sorted (hk : Keyed s) (hsound : AttemptsSound s) (ho : Enumerates s.attempts order) :
    (jobAttempts s order id).Pairwise (fun a b => a.attemptNo < b.attemptNo) := by
  have hle : (jobAttempts s order id).Pairwise (fun a b => a.attemptNo ≤ b.attemptNo) :=
    List.pairwise_insertionSort _ _
  refine (hle.and (jobAttempts_nodup hk ho)).imp_of_mem fun {a b} ha hb hab => lt_of_le_of_ne hab.1 fun heq => ?_
  obtain ⟨⟨i, hi⟩, haj⟩ := (mem_jobAttempts ho).mp ha
  obtain ⟨⟨j, hj⟩, hbj⟩ := (mem_jobAttempts ho).mp hb
  have hij := hsound.unique i j a b hi hj (haj.trans hbj.symm) heq
  rw [hij, hj] at hi
  exact hab.2 (Option.some.inj hi).symm

/-- **The order of the map does not show.** -/
theorem jobAttempts_order (hk : Keyed s) (hsound : AttemptsSound s) (ho : Enumerates s.attempts order)
    (ho' : Enumerates s.attempts order') : jobAttempts s order id = jobAttempts s order' id := by
  have hperm : (jobAttempts s order id).Perm (jobAttempts s order' id) := by
    refine (List.perm_ext_iff_of_nodup (jobAttempts_nodup hk ho) (jobAttempts_nodup hk ho')).mpr fun att => ?_
    rw [mem_jobAttempts ho, mem_jobAttempts ho']
  have hsorted : (jobAttempts s order id).Pairwise (fun a b => a.attemptNo < b.attemptNo) :=
    jobAttempts_sorted hk hsound ho
  refine OrderBy.eq_of_sorted hperm hsorted (jobAttempts_sorted hk hsound ho') fun a _ b _ hab hba => ?_
  exact absurd hba (not_lt.mpr hab.le)

/-- Where the attempts have grown, the later list extends the earlier one. -/
theorem jobAttempts_extends (hk : Keyed s) (hk' : Keyed s') (hsound : AttemptsSound s) (hsound' : AttemptsSound s')
    (hgrew : AttemptsGrew s s') (ho : Enumerates s.attempts order) (ho' : Enumerates s'.attempts order') :
    Extends Progress (jobAttempts s order id) (jobAttempts s' order' id) := by
  refine Extends.of_sorted (jobAttempts_sorted hk hsound ho) (jobAttempts_sorted hk' hsound' ho')
    (fun att hin => ?_) (fun att' hin' => ?_)
  · obtain ⟨⟨a, hatt⟩, hj⟩ := (mem_jobAttempts ho).mp hin
    obtain ⟨att', hatt', hp⟩ := hgrew.kept a att hatt
    exact ⟨att', (mem_jobAttempts ho').mpr ⟨⟨a, hatt'⟩, hp.jobId_eq.trans hj⟩, hp.attemptNo_eq, hp⟩
  · obtain ⟨⟨a, hatt'⟩, hj'⟩ := (mem_jobAttempts ho').mp hin'
    cases hatt : s.attempts a with
    | some att =>
        obtain ⟨att₂, hatt₂, hp⟩ := hgrew.kept a att hatt
        rw [hatt'] at hatt₂
        cases hatt₂
        exact Or.inl ⟨att, (mem_jobAttempts ho).mpr ⟨⟨a, hatt⟩, hp.jobId_eq.symm.trans hj'⟩, hp.attemptNo_eq⟩
    | none =>
        refine Or.inr fun att hin => ?_
        obtain ⟨⟨b, hb⟩, hj⟩ := (mem_jobAttempts ho).mp hin
        have hbound := hsound.bound b att hb
        have hnew := (hgrew.fresh a att' hatt' hatt).1
        rw [hj] at hbound
        rw [hj'] at hnew
        exact lt_of_le_of_lt hbound hnew

end List

/-! ## The law of explanations -/

/-- What may become of an event: that of a running attempt becomes that of its end. -/
def EventGrew (ev ev' : JobObservationEvent) : Prop :=
  ev' = ev ∨ ev.status = "running" ∧ (ev'.status = "succeeded" ∨ ev'.status = "failed") ∧
    ev = { ev' with at_ := ev.at_, durationMs := ev.durationMs, status := ev.status, error := ev.error }

/-- A later explanation of the same job. -/
structure ExplanationGrew (e e' : JobExplanation) : Prop where
  identity : e'.jobId = e.jobId ∧ e'.jobType = e.jobType ∧ e'.queue = e.queue ∧ e'.traceId = e.traceId
  events : Extends EventGrew e.events e'.events
  retries : e.retryCount ≤ e'.retryCount

/-- What an explanation says of itself is true of its events. -/
structure Truthful (e : JobExplanation) : Prop where
  numbered : (e.events.filterMap (·.attempt)).Pairwise (· < ·)
  errors : ∀ ev ∈ e.events, ev.error.isSome ↔ ev.status = "failed"
  durations : ∀ ev ∈ e.events, ev.durationMs.isSome ↔ ev.status = "succeeded" ∨ ev.status = "failed"
  retries : e.retryCount = e.events.countP (fun ev => ev.error.isSome)
  lastWorker : e.lastWorkerId = e.events.getLast?.bind (·.workerId)
  lastError : e.lastError = e.events.reverse.findSome? (·.error)

section Law

variable (display : DateTime → String) (traceIdOf : Value → Option String)

theorem Progress.eventGrew {att att' : MemoryAttempt} (h : Progress att att') (jobId : Uuid) (job : Job) :
    EventGrew (attemptEvent traceIdOf jobId job att) (attemptEvent traceIdOf jobId job att') := by
  cases h with
  | same => exact Or.inl rfl
  | succeeded now latencyMs hrun => exact Or.inr ⟨hrun, Or.inl rfl, rfl⟩
  | failed now latencyMs errorCode errorMessage hrun => exact Or.inr ⟨hrun, Or.inr rfl, rfl⟩

/-- The events of a job depend on what no call changes. -/
theorem attemptEvent_congr {job job' : Job} (h : identity job' = identity job) (jobId : Uuid) :
    attemptEvent traceIdOf jobId job' = attemptEvent traceIdOf jobId job ∧
      queuedEvent traceIdOf jobId job' = queuedEvent traceIdOf jobId job := by
  have hqueue : job'.queue = job.queue := congrArg JobIdentity.queue h
  have hpayload : job'.payload = job.payload := congrArg JobIdentity.payload h
  have hcreated : job'.createdAt = job.createdAt := congrArg JobIdentity.createdAt h
  constructor
  · funext att
    simp only [attemptEvent, hqueue, hpayload]
  · simp only [queuedEvent, hqueue, hpayload, hcreated]

theorem explanation_truthful (now : DateTime) (jobId : Uuid) (job : Job) {attempts : List MemoryAttempt}
    (hsorted : attempts.Pairwise (fun a b => a.attemptNo < b.attemptNo)) (hcoherent : ∀ att ∈ attempts, Coherent att) :
    Truthful (explanation display traceIdOf now jobId job attempts) where
  numbered := by
    have hnumbers : (explanation display traceIdOf now jobId job attempts).events.filterMap (·.attempt) =
        attempts.map (·.attemptNo) := by
      simp [explanation, queuedEvent, attemptEvent, List.filterMap_map, Function.comp_def]
    rw [hnumbers]
    exact List.pairwise_map.mpr hsorted
  errors := by
    intro ev hev
    rcases List.mem_cons.mp hev with rfl | hev
    · simp [queuedEvent]
    · obtain ⟨att, hatt, rfl⟩ := List.mem_map.mp hev
      exact (hcoherent att hatt).error
  durations := by
    intro ev hev
    rcases List.mem_cons.mp hev with rfl | hev
    · simp [queuedEvent]
    · obtain ⟨att, hatt, rfl⟩ := List.mem_map.mp hev
      exact (hcoherent att hatt).latency
  retries := by
    have hcount : attempts.countP (fun att => att.status == "failed") =
        attempts.countP (fun att => (attemptError att).isSome) := by
      refine List.countP_congr fun att hatt => ?_
      rw [beq_iff_eq]
      exact (hcoherent att hatt).error.symm
    simp [explanation, queuedEvent, attemptEvent, List.countP_map, Function.comp_def, ← List.countP_eq_length_filter,
      hcount]
  lastWorker := by
    simp only [explanation, List.getLast?_cons, List.getLast?_map]
    cases attempts.getLast? <;> rfl
  lastError := by
    simp only [explanation, List.reverse_cons, ← List.map_reverse, List.findSome?_append, List.findSome?_map]
    simp [queuedEvent, attemptEvent, Function.comp_def]

theorem explanation_grew {now now' : DateTime} {jobId : Uuid} {job job' : Job} {attempts attempts' : List MemoryAttempt}
    (hid : identity job' = identity job) (hext : Extends Progress attempts attempts') :
    ExplanationGrew (explanation display traceIdOf now jobId job attempts)
      (explanation display traceIdOf now' jobId job' attempts') where
  identity := by
    refine ⟨rfl, congrArg JobIdentity.jobType hid, congrArg JobIdentity.queue hid, ?_⟩
    exact congrArg (fun r => traceIdOf r.payload) hid
  events := by
    obtain ⟨hattempt, hqueued⟩ := attemptEvent_congr traceIdOf hid jobId
    simp only [explanation, hattempt, hqueued]
    exact .entry (Or.inl rfl) (hext.map fun att att' hp => hp.eventGrew traceIdOf jobId job)
  retries := by
    simp only [explanation, ← List.countP_eq_length_filter]
    refine Int.ofNat_le.mpr (hext.countP_le fun att att' hp hfailed => ?_)
    cases hp with
    | same => exact hfailed
    | succeeded now latencyMs hrun => simp [hrun] at hfailed
    | failed now latencyMs errorCode errorMessage hrun => rfl

/-- **An explanation is a log.** In a reachable state the explanation of a job does not depend on the order of the attempts
    map, and what it says of itself is true of its events. After any further calls that delete no history, the job still
    has an explanation, and it extends this one. -/
theorem explain_law {calls : List Call} (hs : backendSystem.Reachable s) (hrun : backendSystem.Run s calls s')
    (hkeep : ∀ call ∈ calls, ¬call.DeletesHistory) {order order' : List Uuid} (ho : Enumerates s.attempts order)
    (ho' : Enumerates s'.attempts order') {now : DateTime} {e : JobExplanation}
    (h : explainJob display traceIdOf s now order id = some e) (now' : DateTime) :
    ∃ e', explainJob display traceIdOf s' now' order' id = some e' ∧
      (∀ order'', Enumerates s'.attempts order'' → explainJob display traceIdOf s' now' order'' id = some e') ∧
      Truthful e' ∧ ExplanationGrew e e' := by
  obtain ⟨job, hjob, rfl⟩ := Option.map_eq_some_iff.mp h
  have hs' := hs.run hrun
  have hk := (backend_invariants hs).2
  have hk' := (backend_invariants hs').2
  have hsound := reachable_attemptsSound hs
  have hsound' := reachable_attemptsSound hs'
  -- the job is still on record, and is the same job
  have hreg : registry s' id = some (identity job) := registry_kept hs hrun (by rw [registry, hjob, Option.map_some])
  obtain ⟨job', hjob', hid⟩ := Option.map_eq_some_iff.mp hreg
  refine ⟨explanation display traceIdOf now' id job' (jobAttempts s' order' id), ?_, ?_, ?_, ?_⟩
  · rw [explainJob, hjob', Option.map_some]
  · intro order'' ho''
    rw [explainJob, hjob', Option.map_some, jobAttempts_order hk' hsound' ho'' ho']
  · refine explanation_truthful display traceIdOf now' id job' (jobAttempts_sorted hk' hsound' ho') fun att hatt => ?_
    obtain ⟨⟨a, ha⟩, _⟩ := (mem_jobAttempts ho').mp hatt
    exact hsound'.coherent a att ha
  · exact explanation_grew display traceIdOf hid
      (jobAttempts_extends hk hk' hsound hsound' (attemptsGrew_run hrun hs hkeep) ho ho')

end Law

/-- The attempt of `started` is the only one. -/
theorem started_attempts : Enumerates (started welcomeEmail).attempts [9] :=
  enumerates_singleton (by decide) fun a hne => Function.update_of_ne hne ..

theorem reclaimed_attempts : Enumerates (reclaimed welcomeEmail).attempts [9] := by
  refine enumerates_singleton (by decide) fun a hne => ?_
  have hnone : (started welcomeEmail).attempts a = none := Function.update_of_ne hne ..
  show (reapExpiredLocks (started welcomeEmail) 35000000000 [7]).2.attempts a = none
  rw [reap_attempts, hnone, Option.map_none]

/-- The lease of the job's first attempt runs out. The payload has no trace id and the job is due, so neither parameter
    has anything to say. -/
theorem explain_law_reclaimed :
    ∃ e', explainJob (fun _ => "") (fun _ => none) (reclaimed welcomeEmail) 35000000000 [9] 7 = some e' ∧
      e'.retryCount = 1 ∧ e'.lastError = some "LEASE_EXPIRED: worker lease expired before ACK" ∧
      ∀ e, explainJob (fun _ => "") (fun _ => none) (started welcomeEmail) 10 [9] 7 = some e → ExplanationGrew e e' := by
  have hreap : backendSystem.step (started welcomeEmail) (.job (.reap 35000000000 [7])) (reclaimed welcomeEmail) :=
    ⟨started_jobs, Prod.ext (by decide) rfl⟩
  have hkeep : ∀ call ∈ [Call.job (.reap 35000000000 [7])], ¬call.DeletesHistory := by
    rintro call hcall ⟨_, _, _, _, rfl⟩
    simp at hcall
  refine ⟨_, rfl, by decide, by decide, fun e he => ?_⟩
  obtain ⟨e', he', _, _, hgrew⟩ := explain_law (fun _ => "") (fun _ => none) started_reachable (.cons hreap (.nil _)) hkeep
    started_attempts reclaimed_attempts he 35000000000
  cases he'
  exact hgrew

end Memory

end Azums
