import Azums.Memory.Numbering
import Azums.Memory.Overflow
import Azums.Quickstart.Records
import Azums.Quickstart.RetryBudget

/-!
# `Quickstart.Routing` — where the outcomes of its handler take a job

A worker leases a job, starts an attempt, and hands the outcome of the handler to the backend: `Ok` completes the job,
a panic or a permanent error puts it into the DLQ, and any other failure puts it back into its queue until the budget
is used up. `Journey` follows one job through the rounds of the worker's loop, with a handler that ends each attempt as
it likes.

`outcome_routing_iff` says when the job ends where its outcomes say: whenever `chrono` can represent the times that the
worker computes on the way, the end of each delay and, for a job that recurs and succeeds, its next occurrence.
-/

namespace Azums.Quickstart

open Azums.Jobs Azums.Memory
open Function (update)

/-! ## Outcomes -/

/-- How an attempt ends, as the handler and its timeout decide it. -/
inductive HandlerOutcome where
  | ok
  | err (message : String)
  | panic (message : String)
  | timeout
deriving DecidableEq

/-- The outcome of an attempt. A task that was aborted counts as an error, with the text that the worker gives it. -/
def handlerOutcome (env : JobEnv) (timeoutSeconds : Option Int) : HandlerOutcome :=
  if timeoutSeconds.isSome && env.timedOut then .timeout
  else
    match env.taskEnd with
    | .ok => .ok
    | .err message => .err message
    | .panic message => .panic message
    | .aborted message => .err s!"task join error: {message}"

namespace HandlerOutcome

/-- The code and the message with which the attempt fails. -/
def failure : HandlerOutcome → Option (String × String)
  | ok => none
  | err message =>
      if startsWithPanic message.toList then some ("PANIC", String.ofList (trimPanic message.toList))
      else some (parseHandlerError message)
  | panic message => some ("PANIC", String.ofList (trimPanic message.toList))
  | timeout => some ("TIMEOUT", "job attempt exceeded timeout_seconds")

/-- The class of the failure. An error whose message starts with `PANIC: ` counts as a panic. -/
def errorClass : HandlerOutcome → Option ErrorClass
  | ok => none
  | err message =>
      some (if startsWithPanic message.toList then .panic else classifyError (parseHandlerError message).1)
  | panic _ => some .panic
  | timeout => some .timeout

/-- The class is the one of the recorded code. -/
theorem errorClass_eq (o : HandlerOutcome) : o.errorClass = o.failure.map (fun f => classifyError f.1) := by
  have hpanic : classifyError "PANIC" = .panic := by decide
  have htimeout : classifyError "TIMEOUT" = .timeout := by decide
  cases o with
  | ok => rfl
  | err message =>
      simp only [errorClass, failure]
      split <;> simp [hpanic]
  | panic message => simp [errorClass, failure, hpanic]
  | timeout => simp [errorClass, failure, htimeout]

theorem failure_eq_none {o : HandlerOutcome} : o.failure = none ↔ o = .ok := by
  cases o with
  | err message =>
      simp only [failure]
      split <;> simp
  | _ => simp [failure]

end HandlerOutcome

/-- The attempt is the last one: it has returned `Ok`, its failure is none to be retried, or the budget is used up. -/
def EndsJob (maxAttempts : Int) (o : HandlerOutcome) (attemptNo : Nat) : Prop :=
  o = .ok ∨ (∃ c, o.errorClass = some c ∧ c.isRetryable = false) ∨ (attemptNo : Int) = maxAttempts

/-- What the attempt's record says of its outcome. -/
def RecordsOutcome (o : HandlerOutcome) (att : MemoryAttempt) : Prop :=
  match o.failure with
  | none => att.status = "succeeded"
  | some (code, message) =>
      att.status = "failed" ∧ att.errorCode = some code ∧ att.errorMessage = some message

/-! ### The end of one attempt

A panic takes a path of its own to the DLQ; it is the one that `handle_failure` would have taken. -/

section Finish

variable {flow : Flow} {env : JobEnv} {s s' : InnerState} {job : Job} {attemptId : Uuid} {attemptNo : Int}

/-- No retry, and the reason `PANIC`. -/
theorem handleFailure_panic (jobId : Uuid) (errorMessage : String) (maxAttempts : Int) :
    handleFailure flow env s jobId attemptId "PANIC" errorMessage attemptNo maxAttempts =
      markDlq s env.now jobId attemptId flow.workerId env.latencyMs "PANIC" "PANIC" errorMessage := by
  have hclass : classifyError "PANIC" = .panic := by decide
  have hno : canRetry "PANIC" attemptNo maxAttempts = false := by simp [canRetry, hclass, ErrorClass.isRetryable]
  simp [handleFailure, hno, hclass, ErrorClass.dlqReasonCode]

theorem panicText (message : String) :
    startsWithPanic (s!"PANIC: {message}").toList = true ∧
      trimPanic (s!"PANIC: {message}").toList = trimPanic message.toList := by
  have htext : (s!"PANIC: {message}").toList = 'P' :: 'A' :: 'N' :: 'I' :: 'C' :: ':' :: ' ' :: message.toList := by
    simp [toString]
  rw [htext]
  exact ⟨rfl, rfl⟩

/-- What the worker tells the backend at the end of an attempt, by the outcome. -/
theorem finishJob_eq (hhandler : flow.handlers job.jobType = true) :
    finishJob flow env s job attemptId attemptNo =
      match (handlerOutcome env job.timeoutSeconds).failure with
      | none => markSucceeded s env.now env.newId job.id attemptId flow.workerId env.latencyMs
      | some (code, message) =>
          handleFailure flow env s job.id attemptId code message attemptNo job.maxAttempts := by
  unfold finishJob timesOut handlerOutcome
  rw [hhandler, Bool.true_and]
  split
  · rfl
  · unfold recordOutcome resOutcome
    simp only [hhandler, if_true]
    cases env.taskEnd with
    | ok => rfl
    | err message | aborted message =>
        simp only [HandlerOutcome.failure]
        split
        · exact (handleFailure_panic _ _ _).symm
        · rfl
    | panic message =>
        obtain ⟨hpanic, htrim⟩ := panicText message
        simp only [HandlerOutcome.failure, hpanic, htrim, if_true, handleFailure_panic]

end Finish

/-! ## The rounds of a job -/

/-- One turn of the worker's loop: a lease, and `process_batch` over what it hands out. -/
def workRound (flow : Flow) (round : RoundEnv) (s : InnerState) : Outcome Unit × InnerState :=
  match leaseRound flow round s with
  | (.ok batch, s) => processBatch flow round.batch batch s
  | (.err message, s) => (.err message, s)
  | (.panic, s) => (.panic, s)

/-- A job and the rounds of a worker that it goes through: round `n` makes attempt `n`. Its `max_attempts` is an
    `i32`. -/
structure Journey where
  flow : Flow
  rounds : Nat → RoundEnv
  new : NewJob
  id : Uuid
  maxAttempts_i32 : new.maxAttempts ≤ 2147483647

namespace Journey

/-- What the surroundings decide in attempt `n`. -/
def env (j : Journey) (n : Nat) : JobEnv := (j.rounds n).batch.job j.id

def attemptId (j : Journey) (n : Nat) : Uuid := (j.env n).attemptId

/-- The outcome of attempt `n`. -/
def outcome (j : Journey) (n : Nat) : HandlerOutcome := handlerOutcome (j.env n) j.new.timeoutSeconds

/-- Attempt `n` is the last one. -/
def EndsAt (j : Journey) (n : Nat) : Prop := EndsJob j.new.maxAttempts (j.outcome n) n

/-- When attempt `n` is due: the first one when the producer says, a retry at the end of its delay. -/
def dueAt (j : Journey) : Nat → DateTime
  | 0 | 1 => j.new.runAt
  | n + 2 => (j.env (n + 1)).clock + (j.env (n + 1)).delaySecs * Chrono.nanosPerSecond

/-- The end of the delay after attempt `n` can be computed. -/
def DelayInRange (j : Journey) (n : Nat) : Prop := (Chrono.addSeconds (j.env n).clock (j.env n).delaySecs).isSome

/-- The job does not recur, or its next occurrence after attempt `n` can be computed. -/
def RecursInRange (j : Journey) (n : Nat) : Prop :=
  ∀ interval, j.new.recurringIntervalSeconds = some interval → (Chrono.addSeconds (j.dueAt n) interval).isSome

/-- The store after `n` rounds. -/
def store (j : Journey) (s : InnerState) : Nat → InnerState
  | 0 => s
  | n + 1 => (workRound j.flow (j.rounds (n + 1)) (j.store s n)).2

end Journey

/-! ### The surroundings

Nobody but the worker touches the job: no lease of it expires, nobody cancels it, and every id that is drawn is new. -/

/-- The job keeps its record, but for what a heartbeat writes, and its attempts. -/
structure SparesJob (id : Uuid) (s s' : InnerState) : Prop where
  wellFormed : WellFormed s → WellFormed s'
  job : ∀ job, s.jobs id = some job → ∃ lockExpiresAt updatedAt,
    s'.jobs id = some { job with lockExpiresAt := lockExpiresAt, updatedAt := updatedAt }
  attempts : ∀ a att, att.jobId = id → (s'.attempts a = some att ↔ s.attempts a = some att)
  count : attemptCount s' id = attemptCount s id

/-- A batch of one job, which the surroundings spare from its lease to its outcome. -/
structure ProcessedAlone (flow : Flow) (env : BatchEnv) (job : Job) (s : InnerState) : Prop where
  beforeStart : SparesJob job.id s (env.beforeStart s)
  newAttempt : (env.beforeStart s).attempts (env.job job.id).attemptId = none
  meanwhile : SparesJob job.id (startBatch flow env [job] s).2
    ((env.job job.id).meanwhile (startBatch flow env [job] s).2)
  newJob : Unused ((env.job job.id).meanwhile (startBatch flow env [job] s).2) (env.job job.id).newId

/-- A round that leases the job and no other, and processes it. -/
structure RoundAlone (flow : Flow) (round : RoundEnv) (id : Uuid) (s : InnerState) : Prop where
  beforeLease : SparesJob id s (round.beforeLease s)
  batch : ∃ job s₁, leaseRound flow round s = (.ok [job], s₁) ∧ job.id = id ∧
    ProcessedAlone flow round.batch job s₁

/-- As long as the job waits, the next round processes it, alone. -/
def Journey.Undisturbed (j : Journey) (s : InnerState) : Prop :=
  ∀ n job, (j.store s n).jobs j.id = some job → job.status = "queued" →
    RoundAlone j.flow (j.rounds (n + 1)) j.id (j.store s n)

theorem SparesJob.refl (id : Uuid) (s : InnerState) : SparesJob id s s :=
  ⟨fun h => h, fun _ hjob => ⟨_, _, hjob⟩, fun _ _ _ => Iff.rfl, rfl⟩

/-- A heartbeat spares the job, whether or not it finds the lease. -/
theorem sparesJob_heartbeat (id : Uuid) (s : InnerState) (now : DateTime) (jobId : Uuid) (workerId : String)
    (leaseSeconds : Int) : SparesJob id s (extendLease s now jobId workerId leaseSeconds).2 := by
  have honly := extendLease_onlyJobs s now jobId workerId leaseSeconds
  refine ⟨fun h => extendLease_wellFormed h jobId workerId leaseSeconds, fun job hjob => ?_, fun a att _ => ?_, ?_⟩
  · unfold extendLease
    cases hstored : s.jobs jobId with
    | none => exact ⟨_, _, hjob⟩
    | some held =>
        simp only
        split
        · cases Chrono.addSeconds now leaseSeconds with
          | none => exact ⟨_, _, hjob⟩
          | some t =>
              by_cases hid : id = jobId
              · subst hid
                rw [hjob] at hstored
                cases hstored
                exact ⟨some t, now, Function.update_self ..⟩
              · exact ⟨_, _, (Function.update_of_ne hid ..).trans hjob⟩
        · exact ⟨_, _, hjob⟩
  · rw [honly.attempts]
  · rw [attemptCount, honly.attemptCounts]
    rfl

/-! ### The specification -/

/-- The job ends with attempt `k`, where its outcome says. -/
structure Routed (j : Journey) (s : InnerState) (k : Nat) : Prop where
  waits : ∀ n, n < k → ∃ job, (j.store s n).jobs j.id = some job ∧ job.status = "queued"
  attempts : ∀ n, n ≤ k → (attemptsOf (j.store s n) j.id).encard = n
  failed : ∀ n, 1 ≤ n → n < k → ∃ a att code message, (j.store s k).attempts a = some att ∧ att.jobId = j.id ∧
    att.attemptNo = n ∧ (j.outcome n).failure = some (code, message) ∧ att.status = "failed" ∧
    att.errorCode = some code
  succeeded : (∃ job, (j.store s k).jobs j.id = some job ∧ job.status = "succeeded") ↔ j.outcome k = .ok
  deadLettered : ∀ c, (j.outcome k).errorClass = some c → ∃ job, (j.store s k).jobs j.id = some job ∧
    job.status = "dlq" ∧ job.dlqReasonCode = some c.dlqReasonCode

/-- The times that the worker computes up to attempt `k` are in range: the end of each delay, and the next occurrence of
    a job that recurs and succeeds. -/
structure TimesInRange (j : Journey) (k : Nat) : Prop where
  delays : ∀ n, 1 ≤ n → n < k → j.DelayInRange n
  recurrence : j.outcome k = .ok → j.RecursInRange k

/-! ## The attempts of the job -/

/-- The job has started its first attempts, and the outcomes of the first of these are recorded. -/
structure Tried (j : Journey) (s : InnerState) (started ended : Nat) : Prop where
  only : ∀ a att, s.attempts a = some att → att.jobId = j.id → ∃ n, 1 ≤ n ∧ n ≤ started ∧ a = j.attemptId n
  recorded : ∀ n, 1 ≤ n → n ≤ ended → ∃ att, s.attempts (j.attemptId n) = some att ∧ att.jobId = j.id ∧
    att.attemptNo = n ∧ RecordsOutcome (j.outcome n) att

namespace Tried

variable {j : Journey} {s s' : InnerState} {n : Nat}

/-- As many attempts as were started, once all of them have ended. -/
theorem encard (h : Tried j s n n) : (attemptsOf s j.id).encard = n := by
  -- the attempt with the number `i` is the one of round `i`
  have hnumber : ∀ a att, s.attempts a = some att → att.jobId = j.id →
      ∃ i, 1 ≤ i ∧ i ≤ n ∧ a = j.attemptId i ∧ att.attemptNo = i := by
    intro a att hatt hid
    obtain ⟨i, h1, hn, rfl⟩ := h.only a att hatt hid
    obtain ⟨att', hatt', _, hno, _⟩ := h.recorded i h1 hn
    rw [hatt] at hatt'
    cases hatt'
    exact ⟨i, h1, hn, rfl, hno⟩
  have hcount : (attemptsOf s j.id).encard = (n : Int).toNat := encard_of_numbers ?_ ?_ ?_
  · rw [hcount, Int.toNat_natCast]
  · intro a att hatt hid
    obtain ⟨i, h1, hn, _, hno⟩ := hnumber a att hatt hid
    omega
  · intro a b att att' hatt hatt' hid hid' heq
    obtain ⟨i, _, _, rfl, hno⟩ := hnumber a att hatt hid
    obtain ⟨i', _, _, rfl, hno'⟩ := hnumber b att' hatt' hid'
    obtain rfl : i = i' := by omega
    rfl
  · intro m h1 hn
    obtain ⟨i, rfl⟩ := Int.eq_ofNat_of_zero_le (by omega : 0 ≤ m)
    obtain ⟨att, hatt, hid, hno, _⟩ := h.recorded i (by omega) (by omega)
    exact ⟨j.attemptId i, att, hatt, hid, hno⟩

theorem congr {started ended : Nat} (h : Tried j s started ended)
    (hattempts : ∀ a att, att.jobId = j.id → (s'.attempts a = some att ↔ s.attempts a = some att)) :
    Tried j s' started ended where
  only a att hatt hid := h.only a att ((hattempts a att hid).mp hatt) hid
  recorded n h1 hn := by
    obtain ⟨att, hatt, hid, hrest⟩ := h.recorded n h1 hn
    exact ⟨att, (hattempts _ att hid).mpr hatt, hid, hrest⟩

/-- Another attempt is started. -/
theorem start (h : Tried j s n n) (hnew : s.attempts (j.attemptId (n + 1)) = none) {att : MemoryAttempt}
    (hattempts : s'.attempts = update s.attempts (j.attemptId (n + 1)) (some att)) : Tried j s' (n + 1) n where
  only a att' hatt' hid := by
    rw [hattempts] at hatt'
    rcases update_eq_some hatt' with ⟨rfl, _⟩ | ⟨_, hold⟩
    · exact ⟨n + 1, by omega, by omega, rfl⟩
    · obtain ⟨i, h1, hn, rfl⟩ := h.only a att' hold hid
      exact ⟨i, h1, by omega, rfl⟩
  recorded i h1 hn := by
    obtain ⟨att', hatt', hrest⟩ := h.recorded i h1 hn
    have hne : j.attemptId i ≠ j.attemptId (n + 1) := by
      intro heq
      rw [heq, hnew] at hatt'
      cases hatt'
    exact ⟨att', by rw [hattempts, Function.update_of_ne hne, hatt'], hrest⟩

/-- The attempt that was started ends. -/
theorem finish (h : Tried j s (n + 1) n) {att att' : MemoryAttempt} (hatt : s.attempts (j.attemptId (n + 1)) = some att)
    (hno : att.attemptNo = (n + 1 : Nat)) (hid' : att'.jobId = j.id) (hno' : att'.attemptNo = (n + 1 : Nat))
    (hrecords : RecordsOutcome (j.outcome (n + 1)) att')
    (hattempts : s'.attempts = update s.attempts (j.attemptId (n + 1)) (some att')) :
    Tried j s' (n + 1) (n + 1) where
  only a att₁ hatt₁ hid := by
    rw [hattempts] at hatt₁
    rcases update_eq_some hatt₁ with ⟨rfl, _⟩ | ⟨_, hold⟩
    · exact ⟨n + 1, by omega, by omega, rfl⟩
    · exact h.only a att₁ hold hid
  recorded i h1 hi := by
    by_cases hlast : i = n + 1
    · subst hlast
      exact ⟨att', by rw [hattempts, Function.update_self], hid', hno', hrecords⟩
    · obtain ⟨att₁, hatt₁, hid₁, hno₁, hrest⟩ := h.recorded i h1 (by omega)
      have hne : j.attemptId i ≠ j.attemptId (n + 1) := by
        intro heq
        rw [heq, hatt] at hatt₁
        cases hatt₁
        omega
      exact ⟨att₁, by rw [hattempts, Function.update_of_ne hne, hatt₁], hid₁, hno₁, hrest⟩

end Tried

/-! ## Two states of the job -/

/-- The job waits for attempt `n + 1`; the attempts before it have failed. -/
structure Waiting (j : Journey) (s : InnerState) (n : Nat) : Prop where
  wellFormed : WellFormed s
  job : ∃ job, s.jobs j.id = some job ∧ job.status = "queued" ∧
    job.toNewJob = { j.new with runAt := j.dueAt (n + 1) }
  count : attemptCount s j.id = n
  tried : Tried j s n n

/-- Attempt `n + 1` of the job runs. -/
structure Working (j : Journey) (s : InnerState) (n : Nat) : Prop where
  wellFormed : WellFormed s
  job : ∃ job, s.jobs j.id = some job ∧ job.status = "running" ∧ job.lockedBy = some j.flow.workerId ∧
    job.toNewJob = { j.new with runAt := j.dueAt (n + 1) }
  attempt : ∃ att, s.attempts (j.attemptId (n + 1)) = some att ∧ att.status = "running" ∧ att.jobId = j.id ∧
    att.attemptNo = (n + 1 : Nat)
  count : attemptCount s j.id = (n + 1 : Nat)
  tried : Tried j s (n + 1) n

/-- The job has ended with attempt `n`. -/
structure Ended (j : Journey) (s : InnerState) (n : Nat) : Prop where
  job : ∃ job, s.jobs j.id = some job ∧ match (j.outcome n).errorClass with
    | none => job.status = "succeeded"
    | some c => job.status = "dlq" ∧ job.dlqReasonCode = some c.dlqReasonCode
  tried : Tried j s n n

/-- The job runs, with no worker at it. -/
def Stuck (j : Journey) (s : InnerState) : Prop := ∃ job, s.jobs j.id = some job ∧ job.status = "running"

/-! ### From a lease to the handler -/

section Start

variable {flow : Flow} {s s' : InnerState} {job : Job}

/-- A batch of one started job. -/
theorem processJobs_single (env : Uuid → JobEnv) {attempts : Uuid → Option (Uuid × Int)} {attemptId : Uuid}
    {attemptNo : Int} (h : attempts job.id = some (attemptId, attemptNo)) :
    processJobs flow env [job] attempts s =
      finishJob flow (env job.id) ((env job.id).meanwhile s) job attemptId attemptNo := by
  simp only [processJobs, h, finishJob]
  split
  · rfl
  · cases recordOutcome flow (env job.id) ((env job.id).meanwhile s) job attemptId attemptNo with
    | mk outcome t => cases outcome <;> rfl

/-- A leased job is started under the number that its counter says. -/
theorem startBatch_single {env : BatchEnv} (hl : Memory.Startable (env.beforeStart s) flow.workerId job.id) :
    startBatch flow env [job] s =
      (.ok [(job.id, (env.job job.id).attemptId, attemptCount (env.beforeStart s) job.id + 1)],
        recordAttempt (env.beforeStart s) env.startNow flow.workerId job.id (env.job job.id).attemptId
          (attemptCount (env.beforeStart s) job.id + 1)) := by
  unfold startBatch startAttemptsBatch
  rw [List.map_singleton, startEach_cons env.startNow _ [] hl]
  rfl

theorem processBatch_single {env : BatchEnv} (hl : Memory.Startable (env.beforeStart s) flow.workerId job.id) :
    processBatch flow env [job] s = finishJob flow (env.job job.id)
      ((env.job job.id).meanwhile (startBatch flow env [job] s).2) job (env.job job.id).attemptId
      (attemptCount (env.beforeStart s) job.id + 1) := by
  have hstart := startBatch_single hl
  unfold processBatch
  rw [hstart]
  exact processJobs_single env.job (by simp [attemptsMap])

/-- What a lease of one job leaves behind. -/
theorem leaseRound_single {round : RoundEnv} (hwf : WellFormed (round.beforeLease s))
    (hret : leaseRound flow round s = (.ok [job], s')) :
    WellFormed s' ∧ OnlyJobs (round.beforeLease s) s' ∧ s'.jobs job.id = some job ∧ job.status = "running" ∧
      job.lockedBy = some flow.workerId ∧ ∃ before, (round.beforeLease s).jobs job.id = some before ∧
        job.toNewJob = before.toNewJob := by
  have hleased : leaseJobsBatchWithOrdering (round.beforeLease s) round.leaseNow flow.queue flow.workerId
      flow.leaseSeconds 32 flow.ordering = (.ok [job], s') := hret
  have hs' := congrArg Prod.snd hleased
  have hp := lease_jobs flow.queue flow.workerId flow.leaseSeconds 32 flow.ordering (by rw [hleased]; simp)
  have hwf' := leaseJobsBatchWithOrdering_wellFormed hwf flow.queue flow.workerId flow.leaseSeconds 32 flow.ordering
    (by rw [hleased]; simp)
  obtain ⟨_, _, _, honly⟩ := hp
  obtain ⟨hjob, hst, hby⟩ := (leased_spec hwf hleased).2 job List.mem_cons_self
  obtain ⟨t, before, hbefore, _, heq⟩ := leased_before hwf hleased List.mem_cons_self
  rw [hs'] at honly hwf'
  refine ⟨hwf', honly, hjob, hst, hby, before, hbefore, ?_⟩
  rw [heq]
  rfl

end Start

/-- What spares the job leaves its attempt running. -/
theorem Working.spares {j : Journey} {s s' : InnerState} {n : Nat} (h : Working j s n) (hs : SparesJob j.id s s') :
    Working j s' n := by
  obtain ⟨job, hjob, hst, hby, hrequest⟩ := h.job
  obtain ⟨_, _, hjob'⟩ := hs.job job hjob
  obtain ⟨att, hatt, hrun, hid, hno⟩ := h.attempt
  exact ⟨hs.wellFormed h.wellFormed, ⟨_, hjob', hst, hby, hrequest⟩,
    ⟨att, (hs.attempts _ att hid).mpr hatt, hrun, hid, hno⟩, hs.count.trans h.count, h.tried.congr hs.attempts⟩

/-- **The start lemma.** A round leases the waiting job, starts its next attempt, and comes to its end. -/
theorem Waiting.work {j : Journey} {s : InnerState} {n : Nat} (h : Waiting j s n)
    (hbudget : ((n + 1 : Nat) : Int) ≤ j.new.maxAttempts) (halone : RoundAlone j.flow (j.rounds (n + 1)) j.id s) :
    ∃ t job, Working j t n ∧ Unused t (j.env (n + 1)).newId ∧ job.id = j.id ∧
      job.toNewJob = { j.new with runAt := j.dueAt (n + 1) } ∧
      workRound j.flow (j.rounds (n + 1)) s =
        finishJob j.flow (j.env (n + 1)) t job (j.attemptId (n + 1)) (n + 1 : Nat) := by
  obtain ⟨hbefore, job, s₁, hlease, hid, hstart, hnew, hmeanwhile, hfresh⟩ := halone
  obtain ⟨waiting, hwaiting, _, hrequest⟩ := h.job
  obtain ⟨_, _, hwaiting'⟩ := hbefore.job waiting hwaiting
  obtain ⟨hwf, honly, hjob, hst, hby, before, hbefore', hsame⟩ :=
    leaseRound_single (hbefore.wellFormed h.wellFormed) hlease
  -- the lease handed out the record that waited
  have hcopy : job.toNewJob = { j.new with runAt := j.dueAt (n + 1) } := by
    rw [hid, hwaiting'] at hbefore'
    cases hbefore'
    exact hsame.trans hrequest
  obtain ⟨_, _, hjob'⟩ := hstart.job job hjob
  have hleased : Leased ((j.rounds (n + 1)).batch.beforeStart s₁) j.flow.workerId job.id := ⟨_, hjob', hst, hby⟩
  have hcount : attemptCount ((j.rounds (n + 1)).batch.beforeStart s₁) job.id = n := by
    rw [hstart.count, attemptCount, honly.attemptCounts, hid]
    exact hbefore.count.trans h.count
  have hstartable : Memory.Startable ((j.rounds (n + 1)).batch.beforeStart s₁) j.flow.workerId job.id := by
    have hmax := j.maxAttempts_i32
    have hroom : attemptCount ((j.rounds (n + 1)).batch.beforeStart s₁) job.id < 2147483647 := by omega
    exact ⟨hleased, hroom⟩
  have htried : Tried j ((j.rounds (n + 1)).batch.beforeStart s₁) n n := by
    refine ((h.tried.congr hbefore.attempts).congr fun a att _ => ?_).congr (hid ▸ hstart.attempts)
    rw [honly.attempts]
  rw [hid] at hjob' hnew hmeanwhile hfresh
  have hbatch := processBatch_single (s := s₁) hstartable
  have hstarted := startBatch_single (s := s₁) hstartable
  rw [hcount, hid] at hbatch hstarted
  refine ⟨_, job, ?_, hfresh, hid, hcopy, ?_⟩
  · rw [hstarted] at hmeanwhile ⊢
    refine Working.spares ?_ hmeanwhile
    refine ⟨(hstart.wellFormed hwf).congr rfl rfl rfl, ⟨_, hjob', hst, hby, hcopy⟩,
      ⟨_, Function.update_self .., rfl, rfl, ?_⟩, ?_, htried.start hnew rfl⟩
    · simp [startedAttempt]
    · rw [recordAttempt_count, if_pos rfl]
      simp
  · rw [workRound, hlease]
    exact hbatch

/-! ### From the handler to the next state -/

section Finish

variable {j : Journey} {s : InnerState} {n : Nat}

theorem Working.stuck (h : Working j s n) : Stuck j s := by
  obtain ⟨job, hjob, hst, _⟩ := h.job
  exact ⟨job, hjob, hst⟩

/-- The checks of an acknowledgement pass. -/
theorem Working.checks (h : Working j s n) :
    Leased s j.flow.workerId j.id ∧ HasAttempt s (j.attemptId (n + 1)) j.id := by
  obtain ⟨job, hjob, hst, hby, _⟩ := h.job
  obtain ⟨att, hatt, hrun, hid, _⟩ := h.attempt
  exact ⟨⟨job, hjob, hst, hby⟩, att, hatt, hrun, hid⟩

/-- The running attempt ends with its outcome recorded. -/
theorem Working.record (h : Working j s n) {s' : InnerState} {att att' : MemoryAttempt}
    (hatt : s.attempts (j.attemptId (n + 1)) = some att) (hclose : Closes att att')
    (hrecords : RecordsOutcome (j.outcome (n + 1)) att')
    (hattempts : s'.attempts = update s.attempts (j.attemptId (n + 1)) (some att')) :
    Tried j s' (n + 1) (n + 1) := by
  obtain ⟨att₁, hatt₁, _, hid, hno⟩ := h.attempt
  rw [hatt] at hatt₁
  cases hatt₁
  exact h.tried.finish hatt hno (hclose.jobId.trans hid) (hclose.attemptNo.trans hno) hrecords hattempts

/-- The job fits, as `Fits` says, if its next occurrence is in range. -/
theorem fits_iff {job : Job} (hrequest : job.toNewJob = { j.new with runAt := j.dueAt n })
    (hdeadline : j.new.deadlineAt = none) : Memory.Fits job ↔ j.RecursInRange n := by
  have hinterval : job.recurringIntervalSeconds = j.new.recurringIntervalSeconds :=
    congrArg NewJob.recurringIntervalSeconds hrequest
  have hrun : job.runAt = j.dueAt n := congrArg NewJob.runAt hrequest
  have hnone : job.deadlineAt = none := (congrArg NewJob.deadlineAt hrequest).trans hdeadline
  simp [Memory.Fits, Journey.RecursInRange, hinterval, hrun, hnone]

/-- `Ok` ends the job, unless it recurs and its next occurrence is out of range. -/
theorem Working.complete (h : Working j s n) (hdeadline : j.new.deadlineAt = none)
    (hok : j.outcome (n + 1) = .ok) {newId : Uuid} (hnew : Unused s newId) (now : DateTime) (latencyMs : Int) :
    (j.RecursInRange (n + 1) →
      Ended j (markSucceeded s now newId j.id (j.attemptId (n + 1)) j.flow.workerId latencyMs).2 (n + 1)) ∧
    (¬j.RecursInRange (n + 1) →
      Stuck j (markSucceeded s now newId j.id (j.attemptId (n + 1)) j.flow.workerId latencyMs).2) := by
  obtain ⟨job, hjob, _, _, hrequest⟩ := h.job
  rw [← fits_iff hrequest hdeadline, ← nextInRange_iff hjob, ← recurringJob_isSome now newId]
  rcases markSucceeded_cases s now newId j.id (j.attemptId (n + 1)) j.flow.workerId latencyMs with
    ⟨hnone, he⟩ | ⟨hnot, _⟩ | ⟨next, job', att, hnext, ⟨hjob', _⟩, ⟨hatt, hrun, _⟩, he⟩
  · rw [he, hnone]
    exact ⟨fun hsome => (by cases hsome), fun _ => h.stuck⟩
  · exact absurd h.checks hnot
  · rw [he, hnext]
    refine ⟨fun _ => ?_, fun hnone => absurd rfl hnone⟩
    -- the next occurrence takes a new id
    have hne : j.id ≠ newId := by
      intro heq
      rw [heq, hnew.1] at hjob
      cases hjob
    have hclose : Closes att (succeededAttempt now latencyMs att) := closes_succeededAttempt hrun latencyMs
    refine ⟨⟨completedJob now job', ?_, ?_⟩, h.record hatt hclose ?_ ?_⟩
    · rw [insertNext_jobs hnext hne, InnerState.setJob_jobs, Function.update_self]
    · rw [hok]
      rfl
    · rw [hok]
      rfl
    · rw [insertNext_attempts]
      rfl

section Failure

variable {code message : String}

/-- A failure that may be retried sends the job back to its queue, unless the end of the delay is out of range. -/
theorem Working.retry (h : Working j s n) (hfail : (j.outcome (n + 1)).failure = some (code, message))
    (hretry : canRetry code (n + 1 : Nat) j.new.maxAttempts = true) :
    (j.DelayInRange (n + 1) →
      Waiting j (handleFailure j.flow (j.env (n + 1)) s j.id (j.attemptId (n + 1)) code message (n + 1 : Nat)
        j.new.maxAttempts).2 (n + 1)) ∧
    (¬j.DelayInRange (n + 1) →
      Stuck j (handleFailure j.flow (j.env (n + 1)) s j.id (j.attemptId (n + 1)) code message (n + 1 : Nat)
        j.new.maxAttempts).2) := by
  unfold handleFailure Journey.DelayInRange
  rw [if_pos hretry]
  cases hadd : Chrono.addSeconds (j.env (n + 1)).clock (j.env (n + 1)).delaySecs with
  | none => exact ⟨fun hsome => (by cases hsome), fun _ => h.stuck⟩
  | some nextRunAt =>
      refine ⟨fun _ => ?_, fun hnone => absurd rfl hnone⟩
      simp only
      have hwf : WellFormed (rescheduleForRetry s (j.env (n + 1)).now j.id (j.attemptId (n + 1)) j.flow.workerId
          (j.env (n + 1)).latencyMs nextRunAt code message).2 :=
        rescheduleForRetry_wellFormed h.wellFormed _ _ _ _ _ _ _
      rcases rescheduleForRetry_cases s (j.env (n + 1)).now j.id (j.attemptId (n + 1)) j.flow.workerId
        (j.env (n + 1)).latencyMs nextRunAt code message with ⟨hnot, _⟩ | ⟨job', att, ⟨hjob', _⟩, ⟨hatt, hrun, _⟩, he⟩
      · exact absurd h.checks hnot
      · obtain ⟨stored, hstored, _, _, hrequest⟩ := h.job
        obtain rfl : stored = job' := Option.some.inj (hstored.symm.trans hjob')
        rw [he] at hwf ⊢
        refine ⟨hwf, ⟨_, Function.update_self .., rfl, ?_⟩, h.count,
          h.record hatt (closes_failedAttempt hrun _ _ _) ?_ rfl⟩
        · have hdue : j.dueAt (n + 1 + 1) = nextRunAt := (Chrono.addSeconds_eq hadd).symm
          rw [hdue]
          show { stored.toNewJob with runAt := nextRunAt } = _
          rw [hrequest]
        · rw [RecordsOutcome, hfail]
          exact ⟨rfl, rfl, rfl⟩

/-- Any other failure ends the job in the DLQ. -/
theorem Working.giveUp (h : Working j s n) (hfail : (j.outcome (n + 1)).failure = some (code, message))
    (hretry : canRetry code (n + 1 : Nat) j.new.maxAttempts = false) :
    Ended j (handleFailure j.flow (j.env (n + 1)) s j.id (j.attemptId (n + 1)) code message (n + 1 : Nat)
      j.new.maxAttempts).2 (n + 1) := by
  unfold handleFailure
  rw [if_neg (ne_true_of_eq_false hretry)]
  rcases markDlq_cases s (j.env (n + 1)).now j.id (j.attemptId (n + 1)) j.flow.workerId (j.env (n + 1)).latencyMs
    (classifyError code).dlqReasonCode code message with ⟨hnot, _⟩ | ⟨job, att, _, ⟨hatt, hrun, _⟩, he⟩
  · exact absurd h.checks hnot
  · rw [he]
    refine ⟨⟨_, Function.update_self .., ?_⟩, h.record hatt (closes_failedAttempt hrun _ _ _) ?_ rfl⟩
    · rw [HandlerOutcome.errorClass_eq, hfail]
      exact ⟨rfl, rfl⟩
    · rw [RecordsOutcome, hfail]
      exact ⟨rfl, rfl, rfl⟩

end Failure

end Finish

/-! ## One round -/

section Rounds

variable {j : Journey} {s : InnerState} {n k : Nat}

/-- While the budget lasts, a failed attempt is the last one exactly if `handle_failure` does not retry it. -/
theorem endsAt_iff {code message : String} (hfail : (j.outcome n).failure = some (code, message))
    (hbudget : (n : Int) ≤ j.new.maxAttempts) : j.EndsAt n ↔ canRetry code n j.new.maxAttempts = false := by
  have hne : j.outcome n ≠ .ok := by
    rw [Ne, ← HandlerOutcome.failure_eq_none, hfail]
    simp
  have hclass : (j.outcome n).errorClass = some (classifyError code) := by
    rw [HandlerOutcome.errorClass_eq, hfail]
    rfl
  simp only [Journey.EndsAt, EndsJob, hne, hclass, Option.some.injEq, exists_eq_left', false_or, canRetry,
    Bool.and_eq_false_iff, decide_eq_false_iff_not]
  exact or_congr_right (by omega)

/-- The round after a wait: an attempt is made, and its outcome goes to the backend. -/
theorem Waiting.store_succ (h : Waiting j (j.store s n) n) (halone : j.Undisturbed s)
    (hhandler : j.flow.handlers j.new.jobType = true) (hbudget : ((n + 1 : Nat) : Int) ≤ j.new.maxAttempts) :
    ∃ t, Working j t n ∧ Unused t (j.env (n + 1)).newId ∧ j.store s (n + 1) =
      (match (j.outcome (n + 1)).failure with
        | none => markSucceeded t (j.env (n + 1)).now (j.env (n + 1)).newId j.id (j.attemptId (n + 1))
            j.flow.workerId (j.env (n + 1)).latencyMs
        | some (code, message) => handleFailure j.flow (j.env (n + 1)) t j.id (j.attemptId (n + 1)) code message
            (n + 1 : Nat) j.new.maxAttempts).2 := by
  obtain ⟨stored, hstored, hst, _⟩ := h.job
  obtain ⟨t, job, hwork, hfresh, hid, hcopy, hround⟩ := h.work hbudget (halone n stored hstored hst)
  have htype : job.jobType = j.new.jobType := congrArg NewJob.jobType hcopy
  have htimeout : job.timeoutSeconds = j.new.timeoutSeconds := congrArg NewJob.timeoutSeconds hcopy
  have hmax : job.maxAttempts = j.new.maxAttempts := congrArg NewJob.maxAttempts hcopy
  refine ⟨t, hwork, hfresh, ?_⟩
  rw [Journey.store, hround, finishJob_eq (by rw [htype]; exact hhandler), htimeout, hid, hmax]
  rfl

/-- A round whose attempt is not the last one: the job waits again, or it is stuck as its delay ends out of range. -/
theorem Waiting.next (h : Waiting j (j.store s n) n) (halone : j.Undisturbed s)
    (hhandler : j.flow.handlers j.new.jobType = true) (hbudget : ((n + 1 : Nat) : Int) ≤ j.new.maxAttempts)
    (hends : ¬j.EndsAt (n + 1)) :
    (j.DelayInRange (n + 1) → Waiting j (j.store s (n + 1)) (n + 1)) ∧
      (¬j.DelayInRange (n + 1) → Stuck j (j.store s (n + 1))) := by
  obtain ⟨t, hwork, _, hstore⟩ := h.store_succ halone hhandler hbudget
  cases hfail : (j.outcome (n + 1)).failure with
  | none => exact absurd (Or.inl (HandlerOutcome.failure_eq_none.mp hfail)) hends
  | some f =>
      obtain ⟨code, message⟩ := f
      rw [endsAt_iff hfail hbudget, Bool.not_eq_false] at hends
      rw [hstore, hfail]
      exact hwork.retry hfail hends

/-- A round with the last attempt: the job ends, or it is stuck as its next occurrence is out of range. -/
theorem Waiting.last (h : Waiting j (j.store s n) n) (halone : j.Undisturbed s)
    (hhandler : j.flow.handlers j.new.jobType = true) (hdeadline : j.new.deadlineAt = none)
    (hbudget : ((n + 1 : Nat) : Int) ≤ j.new.maxAttempts) (hends : j.EndsAt (n + 1)) :
    ((j.outcome (n + 1) = .ok → j.RecursInRange (n + 1)) → Ended j (j.store s (n + 1)) (n + 1)) ∧
      (¬(j.outcome (n + 1) = .ok → j.RecursInRange (n + 1)) → Stuck j (j.store s (n + 1))) := by
  obtain ⟨t, hwork, hfresh, hstore⟩ := h.store_succ halone hhandler hbudget
  cases hfail : (j.outcome (n + 1)).failure with
  | none =>
      have hok := HandlerOutcome.failure_eq_none.mp hfail
      have hcomplete := hwork.complete hdeadline hok hfresh (j.env (n + 1)).now (j.env (n + 1)).latencyMs
      rw [hstore, hfail]
      exact ⟨fun hrange => hcomplete.1 (hrange hok), fun hnot => hcomplete.2 fun hrange => hnot fun _ => hrange⟩
  | some f =>
      obtain ⟨code, message⟩ := f
      rw [endsAt_iff hfail hbudget] at hends
      rw [hstore, hfail]
      refine ⟨fun _ => hwork.giveUp hfail hends, fun hnot => absurd (fun hok => ?_) hnot⟩
      rw [HandlerOutcome.failure_eq_none.mpr hok] at hfail
      cases hfail

/-! ## All rounds -/

/-- A job that is stuck does not wait. -/
theorem Stuck.not_queued (h : Stuck j s) {job : Job} (hjob : s.jobs j.id = some job) : job.status = "running" := by
  obtain ⟨job', hjob', hst⟩ := h
  rw [hjob] at hjob'
  cases hjob'
  exact hst

/-- An attempt with the number of the budget is the last one, if none before it is. -/
theorem exists_last (hmax : 1 ≤ j.new.maxAttempts) :
    ∃ k, IsLeast {n | 1 ≤ n ∧ j.EndsAt n} k ∧ (k : Int) ≤ j.new.maxAttempts := by
  classical
  have hbudget : ∃ n, 1 ≤ n ∧ j.EndsAt n :=
    ⟨j.new.maxAttempts.toNat, by omega, Or.inr (Or.inr (by omega))⟩
  have hleast : Nat.find hbudget ≤ j.new.maxAttempts.toNat :=
    Nat.find_min' hbudget ⟨by omega, Or.inr (Or.inr (by omega))⟩
  exact ⟨Nat.find hbudget, ⟨Nat.find_spec hbudget, fun n hn => Nat.find_min' hbudget hn⟩, by omega⟩

variable (halone : j.Undisturbed s) (hhandler : j.flow.handlers j.new.jobType = true)
  (hgoes : ∀ n, 1 ≤ n → n < k → ¬j.EndsAt n) (hbudget : (k : Int) ≤ j.new.maxAttempts)
include halone hhandler hgoes hbudget

/-- **The run lemma**, by induction on the rounds: with its delays in range, the job waits before each attempt. -/
theorem waiting_of_delays (hstart : Waiting j s 0)
    (hdelays : ∀ n, 1 ≤ n → n < k → j.DelayInRange n) :
    ∀ n, n < k → Waiting j (j.store s n) n := by
  intro n
  induction n with
  | zero => intro _; exact hstart
  | succ n ih =>
      intro hn
      exact ((ih (by omega)).next halone hhandler (by omega) (hgoes (n + 1) (by omega) hn)).1
        (hdelays (n + 1) (by omega) hn)

/-- A job that is queued before each attempt has its delays in range. -/
theorem delays_of_waits (hstart : Waiting j s 0)
    (hwaits : ∀ n, n < k → ∃ job, (j.store s n).jobs j.id = some job ∧ job.status = "queued") :
    ∀ n, 1 ≤ n → n < k → j.DelayInRange n := by
  have hboth : ∀ n, n < k → Waiting j (j.store s n) n ∧ (1 ≤ n → j.DelayInRange n) := by
    intro n
    induction n with
    | zero => intro _; exact ⟨hstart, by omega⟩
    | succ n ih =>
        intro hn
        obtain ⟨hnext, hstuck⟩ :=
          (ih (by omega)).1.next halone hhandler (by omega) (hgoes (n + 1) (by omega) hn)
        -- out of range, the job would run
        have hrange : j.DelayInRange (n + 1) := by
          by_contra hnone
          obtain ⟨job, hjob, hst⟩ := hwaits (n + 1) hn
          rw [(hstuck hnone).not_queued hjob] at hst
          simp at hst
        exact ⟨hnext hrange, fun _ => hrange⟩
  exact fun n h1 hn => (hboth n hn).2 h1

end Rounds

/-- The job waits before each attempt and has ended with the last one: its outcomes have taken it where they say. -/
theorem routed_of_ended {j : Journey} {s : InnerState} {k : Nat} (hgoes : ∀ n, 1 ≤ n → n < k → ¬j.EndsAt n)
    (hwaiting : ∀ n, n < k → Waiting j (j.store s n) n) (hended : Ended j (j.store s k) k) : Routed j s k := by
  obtain ⟨job, hjob, hst⟩ := hended.job
  refine ⟨fun n hn => ?_, fun n hn => ?_, fun n h1 hn => ?_, ?_, fun c hc => ?_⟩
  · obtain ⟨waiting, hwait, hq, _⟩ := (hwaiting n hn).job
    exact ⟨waiting, hwait, hq⟩
  · rcases Nat.lt_or_eq_of_le hn with hlt | rfl
    · exact (hwaiting n hlt).tried.encard
    · exact hended.tried.encard
  · obtain ⟨att, hatt, hid, hno, hrecords⟩ := hended.tried.recorded n h1 hn.le
    cases hfail : (j.outcome n).failure with
    | none => exact absurd (Or.inl (HandlerOutcome.failure_eq_none.mp hfail)) (hgoes n h1 hn)
    | some f =>
        obtain ⟨code, message⟩ := f
        rw [RecordsOutcome, hfail] at hrecords
        exact ⟨j.attemptId n, att, code, message, hatt, hid, hno, rfl, hrecords.1, hrecords.2.1⟩
  · rw [← HandlerOutcome.failure_eq_none]
    rw [HandlerOutcome.errorClass_eq] at hst
    cases hfail : (j.outcome k).failure with
    | none =>
        rw [hfail] at hst
        exact ⟨fun _ => rfl, fun _ => ⟨job, hjob, hst⟩⟩
    | some f =>
        rw [hfail] at hst
        refine ⟨?_, fun hnone => by cases hnone⟩
        rintro ⟨job', hjob', hst'⟩
        rw [hjob] at hjob'
        cases hjob'
        rw [hst.1] at hst'
        simp at hst'
  · rw [hc] at hst
    exact ⟨job, hjob, hst⟩

/-- A fresh job waits for its first attempt. -/
theorem waiting_of_enqueue {j : Journey} {s : InnerState} {now : DateTime} {order : List Uuid}
    (hs : backendSystem.Reachable s) (hfresh : Unused s j.id)
    (hqueued : (enqueue s now j.id order j.new).1 = .ok j.id) : Waiting j (enqueue s now j.id order j.new).2 0 := by
  have hwf := (backend_invariants hs).1
  obtain ⟨hcount, hattempts⟩ := hfresh.noAttempts hs
  have hwf' : WellFormed (enqueue s now j.id order j.new).2 := enqueue_wellFormed hwf hfresh.1 hfresh.2 order j.new
  have hinsert : enqueue s now j.id order j.new = (.ok j.id, insertQueued s (newEntity now j.id j.new)) := by
    unfold enqueue at hqueued ⊢
    cases hkey : j.new.idempotencyKey.bind (findByKey s order) with
    | none => rfl
    | some existing =>
        -- the id of a stored job is not the new one
        rw [hkey] at hqueued
        obtain ⟨key, _, hfind⟩ := Option.bind_eq_some_iff.mp hkey
        obtain ⟨id, _, hjob⟩ := List.mem_filterMap.mp (List.mem_of_find?_eq_some hfind)
        have hid := hwf.jobId id existing hjob
        have hsame : existing.id = j.id := by simpa using hqueued
        rw [← hid, hsame, hfresh.1] at hjob
        cases hjob
  rw [hinsert] at hwf' ⊢
  refine ⟨hwf', ⟨_, Function.update_self .., rfl, rfl⟩, hcount, fun a att hatt hid => ?_, fun n h1 h0 => ?_⟩
  · exact absurd hid (hattempts a att hatt)
  · omega

/-- **Where its outcomes take a job.** A freshly enqueued job with a registered handler, no deadline and a budget of at
    least one attempt is processed alone, and nobody else touches it. Its last attempt is the first whose outcome is
    `Ok`, or a panic, or of a class that is not retried, or which uses up the budget. With this attempt the job ends,
    succeeded or dead-lettered for the reason of its class, and the attempts before it are recorded failed with their
    codes, if and only if the end of each delay, and for a job that succeeds the time of its next occurrence, is in
    range. -/
theorem outcome_routing_iff {s : InnerState} (hs : backendSystem.Reachable s) (j : Journey) (now : DateTime)
    (order : List Uuid) (hfresh : Unused s j.id) (hqueued : (enqueue s now j.id order j.new).1 = .ok j.id)
    (hhandler : j.flow.handlers j.new.jobType = true) (hdeadline : j.new.deadlineAt = none)
    (hmax : 1 ≤ j.new.maxAttempts) (halone : j.Undisturbed (enqueue s now j.id order j.new).2) :
    ∃ k, IsLeast {n | 1 ≤ n ∧ j.EndsAt n} k ∧
      (Routed j (enqueue s now j.id order j.new).2 k ↔ TimesInRange j k) := by
  obtain ⟨k, hleast, hbudget⟩ := exists_last hmax
  have hgoes : ∀ n, 1 ≤ n → n < k → ¬j.EndsAt n := fun n h1 hn hends => absurd (hleast.2 ⟨h1, hends⟩) (by omega)
  have hstart := waiting_of_enqueue hs hfresh hqueued
  obtain ⟨hk, hends⟩ := hleast.1
  obtain ⟨n, rfl⟩ : ∃ n, k = n + 1 := ⟨k - 1, by omega⟩
  refine ⟨n + 1, hleast, ?_⟩
  constructor
  · intro hrouted
    have hdelays := delays_of_waits halone hhandler hgoes hbudget hstart hrouted.waits
    have hwaiting := waiting_of_delays halone hhandler hgoes hbudget hstart hdelays n (by omega)
    refine ⟨hdelays, ?_⟩
    by_contra hnot
    -- out of range, the job would run after its last attempt
    have hstuck := (hwaiting.last halone hhandler hdeadline hbudget hends).2 hnot
    obtain ⟨hok, _⟩ := Classical.not_imp.mp hnot
    obtain ⟨job, hjob, hst⟩ := hrouted.succeeded.mpr hok
    rw [hstuck.not_queued hjob] at hst
    simp at hst
  · intro hrange
    have hwaiting := waiting_of_delays halone hhandler hgoes hbudget hstart hrange.delays
    exact routed_of_ended hgoes hwaiting
      (((hwaiting n (by omega)).last halone hhandler hdeadline hbudget hends).1 hrange.recurrence)

/-! ### A job that is retried, and a job that recurs too seldom -/

/-- A round over an empty queue changes nothing. -/
theorem workRound_idle {flow : Flow} {round : RoundEnv} {s : InnerState} (hlease : round.beforeLease s = s)
    (hstart : round.batch.beforeStart s = s) (hempty : (s.index flow.queue).toList = []) :
    workRound flow round s = (.ok (), s) := by
  have hswept : sweepDeadlines s round.leaseNow flow.queue = s := by simp [sweepDeadlines, expiredDeadlines, hempty]
  have hnone : candidates s round.leaseNow flow.queue 32 = [] := by simp [candidates, hempty]
  have hround : leaseRound flow round s = (.ok [], s) := by
    simp [leaseRound, leaseJobsBatchWithOrdering, hlease, hswept, hnone]
  rw [workRound, hround]
  simp [processBatch, startBatch, startAttemptsBatch, startEach, processJobs, hstart]

/-- Rounds ten seconds apart, with a heartbeat while the handler runs. Attempt `n` ends as `ends n` says. -/
def steadyRounds (ends : Nat → TaskEnd) (n : Nat) : RoundEnv :=
  { beforeLease := id
    leaseNow := n * 10000000000
    batch :=
      { beforeStart := id
        startNow := n * 10000000000 + 1
        job := fun jobId =>
          { attemptId := 10 + n
            meanwhile := fun s => (extendLease s (n * 10000000000 + 2) jobId "w1" 30).2
            timedOut := false, taskEnd := ends n, latencyMs := 5, now := n * 10000000000 + 3
            clock := n * 10000000000 + 3, delaySecs := 2, newId := 20 + n } } }

/-- A rate limit at the first attempt, and no error after it. -/
def limitedOnce : Journey :=
  { flow := emailFlow, rounds := steadyRounds fun n => if n = 1 then .err "rate_limit: slow down" else .ok
    new := welcomeEmail, id := 7, maxAttempts_i32 := by decide }

/-- The job recurs, but not in the years that `chrono` knows. -/
def recursTooSeldom : Journey :=
  { flow := emailFlow, rounds := steadyRounds fun _ => .ok, new := rareReport, id := 7
    maxAttempts_i32 := by decide }

/-- The store in which a journey over an empty backend starts. -/
def Journey.enqueued (j : Journey) : InnerState := (enqueue .init 0 j.id [] j.new).2

/-- Once the queue is empty, no round of the rest changes the store. -/
theorem store_idle {j : Journey} {s : InnerState} {k : Nat} (hlease : ∀ n t, (j.rounds n).beforeLease t = t)
    (hstart : ∀ n t, (j.rounds n).batch.beforeStart t = t) (hempty : ((j.store s k).index j.flow.queue).toList = [])
    (n : Nat) : j.store s (k + n) = j.store s k := by
  induction n with
  | zero => rfl
  | succ n ih =>
      rw [← Nat.add_assoc, Journey.store, ih, workRound_idle (hlease _ _) (hstart _ _) hempty]

/-- A journey whose queue is empty after `k` rounds, where the job does not wait: only the rounds before matter. -/
theorem undisturbed_of_idle {j : Journey} {s : InnerState} {k : Nat} (hlease : ∀ n t, (j.rounds n).beforeLease t = t)
    (hstart : ∀ n t, (j.rounds n).batch.beforeStart t = t) (hempty : ((j.store s k).index j.flow.queue).toList = [])
    (hdone : ((j.store s k).jobs j.id).any (fun job => job.status == "queued") = false)
    (halone : ∀ n, n < k → RoundAlone j.flow (j.rounds (n + 1)) j.id (j.store s n)) : j.Undisturbed s := by
  intro n job hjob hst
  by_cases hn : n < k
  · exact halone n hn
  · obtain ⟨m, rfl⟩ : ∃ m, n = k + m := ⟨n - k, by omega⟩
    rw [store_idle hlease hstart hempty] at hjob
    simp [hjob, hst] at hdone

/-- The job as the worker gets it in round `n`. -/
def leasedAt (n : Nat) (job : Job) : Job := leasedJob (n * 10000000000) (n * 10000000000 + 30000000000) "w1" job

theorem limitedOnce_undisturbed : limitedOnce.Undisturbed limitedOnce.enqueued := by
  refine undisturbed_of_idle (k := 2) (fun _ _ => rfl) (fun _ _ => rfl) (by decide) (by decide) fun n hn => ?_
  match n, hn with
  | 0, _ =>
      exact ⟨.refl _ _, leasedAt 1 (newEntity 0 7 welcomeEmail), _, Prod.ext (by decide) rfl, rfl, .refl _ _, by decide,
        sparesJob_heartbeat _ _ _ _ _ _, by decide, rfl⟩
  | 1, _ =>
      -- what the retry put back
      exact ⟨.refl _ _, leasedAt 2 { requeuedJob 10000000003 (newEntity 0 7 welcomeEmail) with runAt := 12000000003 },
        _, Prod.ext (by decide) rfl, rfl, .refl _ _, by decide, sparesJob_heartbeat _ _ _ _ _ _, by decide, rfl⟩

/-- The second attempt is the last one. -/
theorem limitedOnce_least : IsLeast {n | 1 ≤ n ∧ limitedOnce.EndsAt n} 2 := by
  refine ⟨⟨by decide, Or.inl (by decide)⟩, ?_⟩
  rintro n ⟨h1, hends⟩
  by_contra hlt
  obtain rfl : n = 1 := by omega
  have hclass : (limitedOnce.outcome 1).errorClass = some .systemFailure := by decide
  rcases hends with hok | ⟨c, hc, hno⟩ | hmax
  · exact absurd hok (by decide)
  · rw [hclass] at hc
    cases hc
    simp [ErrorClass.isRetryable] at hno
  · exact absurd hmax (by decide)

/-- The rate limit sends the job back to its queue, and the second attempt completes it. -/
theorem outcome_routing_limited : Routed limitedOnce limitedOnce.enqueued 2 := by
  obtain ⟨k, hk, hiff⟩ := outcome_routing_iff (.start rfl) limitedOnce 0 [] ⟨rfl, rfl⟩ rfl rfl rfl (by decide)
    limitedOnce_undisturbed
  obtain rfl := hk.unique limitedOnce_least
  refine hiff.mpr ⟨fun n h1 h2 => ?_, fun _ interval hi => by cases hi⟩
  obtain rfl : n = 1 := by omega
  exact (by decide : (Chrono.addSeconds 10000000003 2).isSome)

/-- The handler returns `Ok` and the acknowledgement panics: the job keeps running, with no worker at it. -/
theorem recursTooSeldom_stuck :
    backendSystem.Reachable .init ∧ Unused .init 7 ∧ (enqueue .init 0 7 [] rareReport).1 = .ok 7 ∧
      emailFlow.handlers rareReport.jobType = true ∧ rareReport.deadlineAt = none ∧ 1 ≤ rareReport.maxAttempts ∧
      recursTooSeldom.Undisturbed recursTooSeldom.enqueued ∧ recursTooSeldom.outcome 1 = .ok ∧
      IsLeast {n | 1 ≤ n ∧ recursTooSeldom.EndsAt n} 1 ∧
      (workRound emailFlow (recursTooSeldom.rounds 1) recursTooSeldom.enqueued).1 = .panic ∧
      ¬∃ k, IsLeast {n | 1 ≤ n ∧ recursTooSeldom.EndsAt n} k ∧ Routed recursTooSeldom recursTooSeldom.enqueued k := by
  have hok : recursTooSeldom.outcome 1 = .ok := by decide
  have hleast : IsLeast {n | 1 ≤ n ∧ recursTooSeldom.EndsAt n} 1 := ⟨⟨by decide, Or.inl hok⟩, fun _ h => h.1⟩
  refine ⟨.start rfl, ⟨rfl, rfl⟩, rfl, rfl, rfl, by decide, ?_, hok, hleast, by decide, ?_⟩
  · refine undisturbed_of_idle (k := 1) (fun _ _ => rfl) (fun _ _ => rfl) (by decide) (by decide) fun n hn => ?_
    match n, hn with
    | 0, _ =>
        exact ⟨.refl _ _, leasedAt 1 (newEntity 0 7 rareReport), _, Prod.ext (by decide) rfl, rfl, .refl _ _, by decide,
          sparesJob_heartbeat _ _ _ _ _ _, by decide, rfl⟩
  · rintro ⟨k, hk, hrouted⟩
    obtain rfl := hk.unique hleast
    obtain ⟨job, hjob, hst⟩ := hrouted.succeeded.mpr hok
    have hrun : ((recursTooSeldom.store recursTooSeldom.enqueued 1).jobs 7).map (·.status) = some "running" := by decide
    have hjob' : (recursTooSeldom.store recursTooSeldom.enqueued 1).jobs 7 = some job := hjob
    rw [hjob', Option.map_some, hst] at hrun
    simp at hrun

end Azums.Quickstart
