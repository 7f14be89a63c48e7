import Azums.Lib.System
import Azums.Memory.Preservation

/-!
# `Memory.Run` — whole runs of the memory backend

The operations of `Memory.Backend` as the steps of one transition system. The backend holds its lock for the
length of a call, so calls follow one another and a run is a sequence of them. A `MemOp` is one call with
everything that decides what it does: its arguments, its clock, the ids it would draw, the orders in which it
would see the maps it iterates over.

`memory_index_exact` is the main result: whatever the calls, the lease index is the set of queued jobs.
-/

namespace Azums.Memory

/-- One call of the backend. -/
inductive MemOp where
  | enqueue (now : DateTime) (newId : Uuid) (order : List Uuid) (job : NewJob)
  | lease (now : DateTime) (queue workerId : String) (leaseSeconds batchSize : Int) (ordering : QueueOrdering)
  | reap (now : DateTime) (order : List Uuid)
  | startAttempts (now : DateTime) (requests : List (Uuid × Uuid)) (workerId : String)
  | markSucceeded (now : DateTime) (newId jobId attemptId : Uuid) (workerId : String) (latencyMs : Int)
  | markSucceededBatch (updates : List (DateTime × Uuid × Uuid × Uuid × Int)) (workerId : String)
  | reschedule (now : DateTime) (jobId attemptId : Uuid) (workerId : String) (latencyMs : Int)
      (nextRunAt : DateTime) (errorCode errorMessage : String)
  | markDlq (now : DateTime) (jobId attemptId : Uuid) (workerId : String) (latencyMs : Int)
      (reasonCode errorCode errorMessage : String)
  | extendLease (now : DateTime) (jobId : Uuid) (workerId : String) (leaseSeconds : Int)
  | cancel (now : DateTime) (attemptOrder : List Uuid) (jobId : Uuid) (workerId : Option String)
  | archive (order : List Uuid) (cutoff : DateTime) (limit : Int)
  | deleteHistory (archiveOrder attemptOrder : List Uuid) (cutoff : DateTime) (limit : Int)
  | replay (now : DateTime) (newId jobId : Uuid) (overrideQueue : Option String)
      (overrideRunAt : Option DateTime)

/-- No stored job, live or archived, has this id. -/
def Unused (s : InnerState) (id : Uuid) : Prop := s.jobs id = none ∧ s.archive id = none

namespace MemOp

/-- The state a call leaves, and whether it came back (with a value or an error) rather than panicked. -/
def apply (s : InnerState) : MemOp → Bool × InnerState
  | enqueue now newId order job => finish (Memory.enqueue s now newId order job)
  | lease now queue workerId leaseSeconds batchSize ordering =>
      finish (leaseJobsBatchWithOrdering s now queue workerId leaseSeconds batchSize ordering)
  | reap now order => finish (reapExpiredLocks s now order)
  | startAttempts now requests workerId => finish (startAttemptsBatch s now requests workerId)
  | markSucceeded now newId jobId attemptId workerId latencyMs =>
      finish (Memory.markSucceeded s now newId jobId attemptId workerId latencyMs)
  | markSucceededBatch updates workerId => finish (Memory.markSucceededBatch workerId updates s)
  | reschedule now jobId attemptId workerId latencyMs nextRunAt errorCode errorMessage =>
      finish (rescheduleForRetry s now jobId attemptId workerId latencyMs nextRunAt errorCode errorMessage)
  | markDlq now jobId attemptId workerId latencyMs reasonCode errorCode errorMessage =>
      finish (Memory.markDlq s now jobId attemptId workerId latencyMs reasonCode errorCode errorMessage)
  | extendLease now jobId workerId leaseSeconds =>
      finish (Memory.extendLease s now jobId workerId leaseSeconds)
  | cancel now attemptOrder jobId workerId => finish (cancelJob s now attemptOrder jobId workerId)
  | archive order cutoff limit => finish (archiveSucceededOlderThan s order cutoff limit)
  | deleteHistory archiveOrder attemptOrder cutoff limit =>
      finish (deleteHistoryForSucceededOlderThan s archiveOrder attemptOrder cutoff limit)
  | replay now newId jobId overrideQueue overrideRunAt =>
      finish (replayJob s now newId jobId overrideQueue overrideRunAt)
where
  /-- Forget the value. -/
  finish {α : Type} : Outcome α × InnerState → Bool × InnerState
    | (.panic, s) => (false, s)
    | (_, s) => (true, s)

/-- What a call may assume of its surroundings: ids it draws are unused, an order lists its map. -/
def Admissible (s : InnerState) : MemOp → Prop
  | enqueue _ newId order _ => Unused s newId ∧ Enumerates s.jobs order
  | reap _ order => Enumerates s.jobs order
  | startAttempts _ requests _ =>
      (requests.map (·.2)).Nodup ∧ ∀ r ∈ requests, s.attempts r.2 = none
  | markSucceeded _ newId _ _ _ _ => Unused s newId
  | markSucceededBatch updates _ => (updates.map (·.2.1)).Nodup ∧ ∀ u ∈ updates, Unused s u.2.1
  | cancel _ attemptOrder _ _ => Enumerates s.attempts attemptOrder
  | archive order _ _ => Enumerates s.jobs order
  | deleteHistory archiveOrder attemptOrder _ _ =>
      Enumerates s.archive archiveOrder ∧ Enumerates s.attempts attemptOrder
  | replay _ newId _ _ _ => Unused s newId
  | lease .. | reschedule .. | markDlq .. | extendLease .. => True

/-- Forgetting the value keeps the state. -/
@[simp] theorem finish_snd {α : Type} (r : Outcome α × InnerState) : (apply.finish r).2 = r.2 := by
  obtain ⟨outcome, s⟩ := r
  cases outcome <;> rfl

theorem finish_fst {α : Type} {r : Outcome α × InnerState} (h : (apply.finish r).1 = true) :
    r.1 ≠ .panic := by
  obtain ⟨outcome, s⟩ := r
  rintro rfl
  cases h

/-- **The step lemma.** A call that comes back leaves a well-formed state well formed. -/
theorem apply_wellFormed {s : InnerState} (h : WellFormed s) (op : MemOp) (hadm : op.Admissible s)
    (hret : (op.apply s).1 = true) : WellFormed (op.apply s).2 := by
  cases op with
  | enqueue now newId order job =>
      obtain ⟨⟨hj, ha⟩, _⟩ := hadm
      simp only [apply, finish_snd]
      exact enqueue_wellFormed h hj ha order job
  | lease now queue workerId leaseSeconds batchSize ordering =>
      have hp := finish_fst hret
      simp only [apply, finish_snd]
      exact leaseJobsBatchWithOrdering_wellFormed h queue workerId leaseSeconds batchSize ordering hp
  | reap now order =>
      simp only [apply, finish_snd]
      exact reapExpiredLocks_wellFormed h hadm.nodup
  | startAttempts now requests workerId =>
      simp only [apply, finish_snd]
      exact startAttemptsBatch_wellFormed h requests workerId
  | markSucceeded now newId jobId attemptId workerId latencyMs =>
      simp only [apply, finish_snd]
      exact markSucceeded_wellFormed h hadm.1 hadm.2 jobId attemptId workerId latencyMs
  | markSucceededBatch updates workerId =>
      simp only [apply, finish_snd]
      exact markSucceededBatch_wellFormed updates h hadm.1 hadm.2
  | reschedule now jobId attemptId workerId latencyMs nextRunAt errorCode errorMessage =>
      simp only [apply, finish_snd]
      exact rescheduleForRetry_wellFormed h jobId attemptId workerId latencyMs nextRunAt errorCode errorMessage
  | markDlq now jobId attemptId workerId latencyMs reasonCode errorCode errorMessage =>
      simp only [apply, finish_snd]
      exact markDlq_wellFormed h jobId attemptId workerId latencyMs reasonCode errorCode errorMessage
  | extendLease now jobId workerId leaseSeconds =>
      simp only [apply, finish_snd]
      exact extendLease_wellFormed h jobId workerId leaseSeconds
  | cancel now attemptOrder jobId workerId =>
      simp only [apply, finish_snd]
      exact cancelJob_wellFormed h attemptOrder jobId workerId
  | archive order cutoff limit =>
      simp only [apply, finish_snd]
      exact archiveSucceededOlderThan_wellFormed h order cutoff limit
  | deleteHistory archiveOrder attemptOrder cutoff limit =>
      simp only [apply, finish_snd]
      exact deleteHistoryForSucceededOlderThan_wellFormed h archiveOrder attemptOrder cutoff limit
  | replay now newId jobId overrideQueue overrideRunAt =>
      simp only [apply, finish_snd]
      exact replayJob_wellFormed h hadm.1 hadm.2 jobId overrideQueue overrideRunAt

end MemOp

/-- The memory backend: it starts empty, and takes one call after the other. -/
def memorySystem : System InnerState MemOp :=
  { init := fun s => s = InnerState.init
    step := fun s op s' => op.Admissible s ∧ op.apply s = (true, s') }

/-- **The run lemma.** -/
theorem reachable_wellFormed {s : InnerState} (h : memorySystem.Reachable s) : WellFormed s := by
  refine h.invariant ?_ ?_
  · rintro s rfl
    exact WellFormed.init
  · rintro s op s' _ hwf ⟨hadm, hop⟩
    have hstep := MemOp.apply_wellFormed hwf op hadm (by rw [hop])
    rw [hop] at hstep
    exact hstep

/-- **The lease index is exact.** In every reachable state a queue's index holds the entry of each of its
    queued jobs, under the job's present key, and nothing else; a job's status is one of the five, its three
    lock fields are set exactly while it runs and its two DLQ fields exactly in the DLQ; and the archive holds
    succeeded jobs that are no longer stored. -/
theorem memory_index_exact {s : InnerState} (h : memorySystem.Reachable s) :
    (∀ queue entry, entry ∈ s.index queue ↔ ∃ job, s.jobs entry.id = some job ∧ job.queue = queue ∧
      job.status = "queued" ∧ entry = QueueEntry.fromJob job) ∧
    (∀ id job, s.jobs id = some job → job.status ∈ ["queued", "running", "succeeded", "dlq", "canceled"]) ∧
    (∀ id job, s.jobs id = some job →
      (job.status = "running" →
        job.lockedAt.isSome ∧ job.lockedBy.isSome ∧ job.lockExpiresAt.isSome) ∧
      (job.status ≠ "running" → job.lockedAt = none ∧ job.lockedBy = none ∧ job.lockExpiresAt = none) ∧
      ((job.dlqReasonCode.isSome ∧ job.dlqAt.isSome) ↔ job.status = "dlq") ∧
      (job.dlqReasonCode.isSome ↔ job.dlqAt.isSome)) ∧
    (∀ id job, s.jobs id = some job → job.id = id) ∧
    (∀ id job, s.archive id = some job → job.id = id ∧ job.status = "succeeded" ∧ s.jobs id = none) := by
  have hwf := reachable_wellFormed h
  refine ⟨hwf.indexed, ?_, ?_, hwf.jobId, ?_⟩
  · intro id job hjob
    have hst := (hwf.jobOk id job hjob).status
    simpa [Terminal] using hst
  · intro id job hjob
    have hok := hwf.jobOk id job hjob
    refine ⟨?_, ?_, ?_, ?_⟩
    · intro hr
      exact ⟨hok.lockedAt.mpr hr, hok.lockedBy.mpr hr, hok.lockExpiresAt.mpr hr⟩
    · intro hnr
      refine ⟨?_, ?_, ?_⟩
      · exact Option.not_isSome_iff_eq_none.mp fun hs => hnr (hok.lockedAt.mp hs)
      · exact Option.not_isSome_iff_eq_none.mp fun hs => hnr (hok.lockedBy.mp hs)
      · exact Option.not_isSome_iff_eq_none.mp fun hs => hnr (hok.lockExpiresAt.mp hs)
    · rw [hok.dlqReasonCode, hok.dlqAt, and_self]
    · rw [hok.dlqReasonCode, hok.dlqAt]
  · intro id job harch
    obtain ⟨hid, hst, _, hnone⟩ := hwf.archived id job harch
    exact ⟨hid, hst, hnone⟩

/-- A job for the runs below. -/
def welcomeEmail : NewJob :=
  { queue := "emails", jobType := "welcome", payloadJson := "{}", idempotencyKey := none, runAt := 0,
    deadlineAt := none, timeoutSeconds := none, recurringIntervalSeconds := none, priority := 0,
    maxAttempts := 3 }

/-- An enqueue without a key stores one more job. -/
theorem enqueue_reachable {s : InnerState} {order : List Uuid} (h : memorySystem.Reachable s)
    (ho : Enumerates s.jobs order) (now : DateTime) (newId : Uuid) (job : NewJob) (hfresh : Unused s newId)
    (hkey : job.idempotencyKey = none) :
    memorySystem.Reachable ((MemOp.enqueue now newId order job).apply s).2 ∧
      Enumerates ((MemOp.enqueue now newId order job).apply s).2.jobs (newId :: order) := by
  have henq : enqueue s now newId order job = (.ok newId, insertQueued s (newEntity now newId job)) := by
    unfold enqueue
    rw [hkey]
    rfl
  refine ⟨h.next (i := .enqueue now newId order job) ⟨⟨hfresh, ho⟩, ?_⟩, ?_⟩
  · simp only [MemOp.apply, henq]
    rfl
  · simp only [MemOp.apply, henq]
    exact ho.insert hfresh.1 _

/-- Five jobs in two queues: of `emails`, two of one instant, one with a deadline and one of a higher priority. -/
def twoQueues : InnerState :=
  ([.enqueue 5 8 [] welcomeEmail, .enqueue 5 7 [8] welcomeEmail,
    .enqueue 6 9 [7, 8] { welcomeEmail with deadlineAt := some 10 },
    .enqueue 6 10 [9, 7, 8] { welcomeEmail with queue := "reports" },
    .enqueue 7 11 [10, 9, 7, 8] { welcomeEmail with priority := 5 }] : List MemOp).foldl
      (fun s op => (op.apply s).2) InnerState.init

theorem twoQueues_reachable :
    memorySystem.Reachable twoQueues ∧ Enumerates twoQueues.jobs [11, 10, 9, 7, 8] := by
  obtain ⟨h₁, ho₁⟩ := enqueue_reachable (.start rfl) enumerates_nil 5 8 welcomeEmail ⟨rfl, rfl⟩ rfl
  obtain ⟨h₂, ho₂⟩ := enqueue_reachable h₁ ho₁ 5 7 welcomeEmail ⟨rfl, rfl⟩ rfl
  obtain ⟨h₃, ho₃⟩ := enqueue_reachable h₂ ho₂ 6 9 { welcomeEmail with deadlineAt := some 10 } ⟨rfl, rfl⟩ rfl
  obtain ⟨h₄, ho₄⟩ := enqueue_reachable h₃ ho₃ 6 10 { welcomeEmail with queue := "reports" } ⟨rfl, rfl⟩ rfl
  exact enqueue_reachable h₄ ho₄ 7 11 { welcomeEmail with priority := 5 } ⟨rfl, rfl⟩ rfl

/-- Enqueue a job and lease it: no entry is left, and the job carries its lease. -/
theorem memory_index_exact_leased :
    let s := ((MemOp.lease 5 "emails" "w1" 30 10 .fifo).apply
      ((MemOp.enqueue 0 7 [] welcomeEmail).apply InnerState.init).2).2
    (∀ entry, entry ∈ s.index "emails" → entry.id ≠ 7) ∧
      ∀ job, s.jobs 7 = some job → job.lockExpiresAt.isSome := by
  intro s
  have hreach : memorySystem.Reachable s := by
    refine .next (i := .lease 5 "emails" "w1" 30 10 .fifo) (.next (i := .enqueue 0 7 [] welcomeEmail)
      (.start rfl) ⟨⟨⟨rfl, rfl⟩, enumerates_nil⟩, rfl⟩) ⟨trivial, ?_⟩
    exact Prod.ext (by decide) rfl
  obtain ⟨hindex, _, hlock, _⟩ := memory_index_exact hreach
  have hrun : (s.jobs 7).map (·.status) = some "running" := by decide
  constructor
  · rintro entry hentry hid
    obtain ⟨job, hjob, _, hst, _⟩ := (hindex "emails" entry).mp hentry
    rw [hid] at hjob
    rw [hjob, Option.map_some, hst] at hrun
    exact absurd hrun (by decide)
  · intro job hjob
    rw [hjob, Option.map_some] at hrun
    exact ((hlock 7 job hjob).1 (Option.some.inj hrun)).2.2

end Azums.Memory
