import Azums.Memory.Effects
import Azums.Memory.Fencing
import Azums.Memory.Numbering
import Azums.Quickstart.ProcessBatch

/-!
# `Quickstart.RetryBudget` — how often a job is tried

A worker leases jobs, starts one attempt for each lease, runs the handler and records the outcome by the failure rule of
`QuickstartFlow`; or it crashes at any point, and the reaper takes its leases back. `handle_failure` compares the number
of the attempt with `max_attempts`, and the job goes to the DLQ when the budget is spent.

`reap_expired_locks` closes the attempt as `LEASE_EXPIRED` and puts the job back whatever its number was, so a job whose
worker crashes on the last attempt is tried again. And a worker that stalls before it starts its attempt may start it
after its lease was taken back, if its worker id has leased the job again. `retry_budget` says that nothing else breaks
the budget: in every run without these two, no job starts more attempts than it may, and a job all of whose attempts
have failed is in the DLQ for good.
-/

namespace Azums.Quickstart

open Azums.Jobs Azums.Memory
open Function (update)

/-! ## The workers -/

/-- How far a worker is with a job it was given. -/
inductive Progress where
  | leased
  | started (attemptId : Uuid) (attemptNo : Int)
  | over

/-- What a worker has in hand of one lease of one job: the copy it was given, and how far it is with it. -/
structure Holding where
  flow : Flow
  job : Job
  progress : Progress

/-- The backend, and all that was ever leased from it, in the order of the leases. A worker keeps what it has in hand
    when its lease is taken back, and when the job is leased again, be it under its own worker id. -/
structure Crew where
  store : InnerState
  holds : List Holding

/-- An entry of a batch whose attempts are started: the place of the holding, its job, and the id of the attempt. -/
structure Entry where
  place : Nat
  jobId : Uuid
  attemptId : Uuid

def Entry.request (e : Entry) : Uuid × Uuid := (e.jobId, e.attemptId)

/-- What producers, workers and the reaper do. -/
inductive Action where
  | enqueue (now : DateTime) (newId : Uuid) (order : List Uuid) (job : NewJob)
  | lease (flow : Flow) (now : DateTime) (batchSize : Int)
  | start (flow : Flow) (now : DateTime) (batch : List Entry)
  | finish (env : JobEnv) (place : Nat)
  | crash (place : Nat)
  | heartbeat (flow : Flow) (now : DateTime) (jobId : Uuid)
  | reap (now : DateTime) (order : List Uuid)

/-- The holdings after a lease. -/
def takeJobs (flow : Flow) (leased : List Job) (holds : List Holding) : List Holding :=
  holds ++ leased.map fun job => { flow, job, progress := .leased }

/-- How far the worker is with a job of its batch, once `start_attempts_batch` has answered. -/
def Entry.progress (started : List (Uuid × Uuid × Int)) (e : Entry) : Progress :=
  (started.find? (fun r => r.1 == e.jobId)).elim .over fun r => .started r.2.1 r.2.2

/-- The holdings after attempts were started. -/
def giveAttempts (batch : List Entry) (started : List (Uuid × Uuid × Int)) (holds : List Holding) : List Holding :=
  holds.mapIdx fun n hold =>
    (batch.find? (fun e => e.place == n)).elim hold fun e => { hold with progress := e.progress started }

/-- The holdings when the worker is done with one, or has lost it. -/
def dropHolding (place : Nat) (holds : List Holding) : List Holding :=
  holds.modify place fun hold => { hold with progress := .over }

/-- The end of one job in `process_batch`, when its handler has ended or its timeout has come. -/
def finishJob (flow : Flow) (env : JobEnv) (s : InnerState) (job : Job) (attemptId : Uuid) (attemptNo : Int) :
    Outcome Unit × InnerState :=
  if timesOut flow env job then recordTimeout flow env s job attemptId attemptNo
  else recordOutcome flow env s job attemptId attemptNo

/-- A batch that a worker may start: jobs it has leased and not started, each once, with new attempt ids. -/
structure Startable (σ : Crew) (flow : Flow) (batch : List Entry) : Prop where
  held : ∀ e ∈ batch, ∃ job, σ.holds[e.place]? = some ⟨flow, job, .leased⟩ ∧ job.id = e.jobId
  jobs : (batch.map (·.jobId)).Nodup
  attempts : (batch.map (·.attemptId)).Nodup
  unused : ∀ e ∈ batch, σ.store.attempts e.attemptId = none

/-- One action. Where the backend refuses, the worker returns the error, and what it held is left to the reaper; so does a
    crash. -/
inductive WorkStep : Crew → Action → Crew → Prop where
  | enqueue {σ : Crew} {now : DateTime} {newId : Uuid} {order : List Uuid} {job : NewJob} :
      Unused σ.store newId → Enumerates σ.store.jobs order →
      WorkStep σ (.enqueue now newId order job) { σ with store := (enqueue σ.store now newId order job).2 }
  | lease {σ : Crew} {flow : Flow} {now : DateTime} {batchSize : Int} {leased : List Job} {s' : InnerState} :
      leaseJobsBatchWithOrdering σ.store now flow.queue flow.workerId flow.leaseSeconds batchSize flow.ordering =
        (.ok leased, s') →
      WorkStep σ (.lease flow now batchSize) { store := s', holds := takeJobs flow leased σ.holds }
  | start {σ : Crew} {flow : Flow} {now : DateTime} {batch : List Entry} {started : List (Uuid × Uuid × Int)}
      {s' : InnerState} :
      Startable σ flow batch →
      startAttemptsBatch σ.store now (batch.map Entry.request) flow.workerId = (.ok started, s') →
      WorkStep σ (.start flow now batch) { store := s', holds := giveAttempts batch started σ.holds }
  | startRefused {σ : Crew} {flow : Flow} {now : DateTime} {batch : List Entry} {message : String} {s' : InnerState} :
      Startable σ flow batch →
      startAttemptsBatch σ.store now (batch.map Entry.request) flow.workerId = (.err message, s') →
      WorkStep σ (.start flow now batch) { store := s', holds := giveAttempts batch [] σ.holds }
  | finish {σ : Crew} {env : JobEnv} {place : Nat} {attemptId : Uuid} {attemptNo : Int} {flow : Flow} {job : Job}
      {outcome : Outcome Unit} {s' : InnerState} :
      σ.holds[place]? = some ⟨flow, job, .started attemptId attemptNo⟩ → Unused σ.store env.newId →
      finishJob flow env σ.store job attemptId attemptNo = (outcome, s') → outcome ≠ .panic →
      WorkStep σ (.finish env place) { store := s', holds := dropHolding place σ.holds }
  | crash {σ : Crew} {place : Nat} : WorkStep σ (.crash place) { σ with holds := dropHolding place σ.holds }
  | heartbeat {σ : Crew} {flow : Flow} {now : DateTime} {jobId : Uuid} {outcome : Outcome Bool} {s' : InnerState} :
      extendLease σ.store now jobId flow.workerId flow.leaseSeconds = (outcome, s') → outcome ≠ .panic →
      WorkStep σ (.heartbeat flow now jobId) { σ with store := s' }
  | reap {σ : Crew} {now : DateTime} {order : List Uuid} :
      Enumerates σ.store.jobs order →
      WorkStep σ (.reap now order) { σ with store := (reapExpiredLocks σ.store now order).2 }

/-- The workers of a backend that starts empty. -/
def workSystem : System Crew Action where
  init σ := σ = { store := .init, holds := [] }
  step := WorkStep

/-! ## The budget -/

/-- The job has started `max_attempts` attempts, and all of them have failed. -/
def Exhausted (s : InnerState) (job : Job) : Prop :=
  (attemptsOf s job.id).encard = job.maxAttempts.toNat ∧
    ∀ a att, s.attempts a = some att → att.jobId = job.id → att.status = "failed"

/-- The job is in the DLQ, and no lease hands it out. -/
structure Retired (s : InnerState) (id : Uuid) : Prop where
  status : ∃ job, s.jobs id = some job ∧ job.status = "dlq"
  notLeased : ∀ now queue workerId leaseSeconds batchSize ordering leased s',
    leaseJobsBatchWithOrdering s now queue workerId leaseSeconds batchSize ordering = (.ok leased, s') →
      ∀ job ∈ leased, job.id ≠ id

/-- **The retry budget**, in one state of a run: no job has started more than `max_attempts` attempts, and a job that
    has used them up in vain is retired from here on. -/
structure RetryBudget (m : System Crew Action) (σ : Crew) : Prop where
  bounded : ∀ id job, σ.store.jobs id = some job → 1 ≤ job.maxAttempts →
    (attemptsOf σ.store id).encard ≤ job.maxAttempts.toNat
  retired : ∀ id job, σ.store.jobs id = some job → 1 ≤ job.maxAttempts → Exhausted σ.store job →
    ∀ actions σ', m.Run σ actions σ' → Retired σ'.store id

/-- The reaper takes back no lease of a job that has started `max_attempts` attempts. -/
def SparesSpentJobs (σ : Crew) (action : Action) (_ : Crew) : Prop :=
  ∀ now order, action = .reap now order → ∀ id job, σ.store.jobs id = some job → leaseExpired now job = true →
    1 ≤ job.maxAttempts → attemptCount σ.store id < job.maxAttempts

/-- No job has been leased again since the lease at this place. -/
def Latest (holds : List Holding) (place : Nat) (id : Uuid) : Prop :=
  ∀ (n : Nat) (hold : Holding), holds[n]? = some hold → hold.job.id = id → n ≤ place

/-- Where the backend lets a worker start an attempt, it is under the last lease of the job. -/
def StartsInTime (σ : Crew) (action : Action) (_ : Crew) : Prop :=
  ∀ flow now batch, action = .start flow now batch → ∀ e ∈ batch, Leased σ.store flow.workerId e.jobId →
    Latest σ.holds e.place e.jobId

/-- What the budget rests on. -/
structure Orderly (σ : Crew) (action : Action) (σ' : Crew) : Prop where
  spares : SparesSpentJobs σ action σ'
  inTime : StartsInTime σ action σ'

/-! ## What ends a job -/

/-- The acknowledgements that may end a job: a retry only where there may be one. -/
inductive Ending (s : InnerState) (now : DateTime) (newId jobId attemptId : Uuid) (workerId : String)
    (latencyMs : Int) (mayRetry : Prop) : Outcome Unit × InnerState → Prop where
  | succeeded : Ending s now newId jobId attemptId workerId latencyMs mayRetry
      (markSucceeded s now newId jobId attemptId workerId latencyMs)
  | dead {reasonCode errorCode errorMessage : String} :
      Ending s now newId jobId attemptId workerId latencyMs mayRetry
        (markDlq s now jobId attemptId workerId latencyMs reasonCode errorCode errorMessage)
  | retried {nextRunAt : DateTime} {errorCode errorMessage : String} : mayRetry →
      Ending s now newId jobId attemptId workerId latencyMs mayRetry
        (rescheduleForRetry s now jobId attemptId workerId latencyMs nextRunAt errorCode errorMessage)

/-- `handle_failure` retries only if attempts are left. -/
theorem handleFailure_ending {flow : Flow} {env : JobEnv} {s : InnerState} {jobId attemptId : Uuid}
    {errorCode errorMessage : String} {attemptNo maxAttempts : Int}
    (hp : (handleFailure flow env s jobId attemptId errorCode errorMessage attemptNo maxAttempts).1 ≠ .panic) :
    Ending s env.now env.newId jobId attemptId flow.workerId env.latencyMs (attemptNo < maxAttempts)
      (handleFailure flow env s jobId attemptId errorCode errorMessage attemptNo maxAttempts) := by
  unfold handleFailure at hp ⊢
  split
  · rename_i hretry
    rw [if_pos hretry] at hp
    simp only [canRetry, Bool.and_eq_true, decide_eq_true_eq] at hretry
    cases hnext : Chrono.addSeconds env.clock env.delaySecs with
    | none =>
        rw [hnext] at hp
        exact absurd rfl hp
    | some nextRunAt => exact .retried hretry.2
  · exact .dead

/-- The end of a job is one acknowledgement, and a retry only if attempts are left. -/
theorem finishJob_ending (flow : Flow) (env : JobEnv) (s : InnerState) (job : Job) (attemptId : Uuid) (attemptNo : Int)
    (hp : (finishJob flow env s job attemptId attemptNo).1 ≠ .panic) :
    Ending s env.now env.newId job.id attemptId flow.workerId env.latencyMs (attemptNo < job.maxAttempts)
      (finishJob flow env s job attemptId attemptNo) := by
  unfold finishJob at hp ⊢
  split
  · rename_i htimeout
    rw [if_pos htimeout] at hp
    exact handleFailure_ending hp
  · rename_i htimeout
    rw [if_neg htimeout] at hp
    unfold recordOutcome at hp ⊢
    cases hres : resOutcome flow env job with
    | ok u => exact .succeeded
    | error errStr =>
        simp only [hres] at hp ⊢
        split
        · exact .dead
        · rename_i hpanic
          rw [if_neg hpanic] at hp
          exact handleFailure_ending hp

/-! ## Steps as calls -/

variable {s s' : InnerState} {σ σ' : Crew} {action : Action}

/-- A call of the backend that archives nothing, deletes no history, and starts no job twice. -/
structure Serves (op : MemOp) (s s' : InnerState) : Prop where
  admissible : op.Admissible s
  apply : op.apply s = (true, s')
  startsOnce : ∀ now requests workerId, op = .startAttempts now requests workerId → (requests.map (·.1)).Nodup
  keepsJobs : ∀ order cutoff limit, op ≠ .archive order cutoff limit
  keepsHistory : ∀ archiveOrder attemptOrder cutoff limit, op ≠ .deleteHistory archiveOrder attemptOrder cutoff limit

theorem finish_eq {α : Type} {r : Outcome α × InnerState} (hp : r.1 ≠ .panic) : MemOp.apply.finish r = (true, r.2) := by
  obtain ⟨outcome, t⟩ := r
  cases outcome with
  | ok a => rfl
  | err message => rfl
  | panic => exact absurd rfl hp

theorem serves_enqueue (now : DateTime) {newId : Uuid} {order : List Uuid} (hnew : Unused s newId)
    (horder : Enumerates s.jobs order) (job : NewJob) :
    Serves (.enqueue now newId order job) s (enqueue s now newId order job).2 := by
  refine ⟨⟨hnew, horder⟩, finish_eq ?_, by simp, by simp, by simp⟩
  unfold enqueue
  cases job.idempotencyKey.bind (findByKey s order) <;> simp

theorem serves_lease {now : DateTime} {queue workerId : String} {leaseSeconds batchSize : Int}
    {ordering : QueueOrdering} {leased : List Job}
    (hret : leaseJobsBatchWithOrdering s now queue workerId leaseSeconds batchSize ordering = (.ok leased, s')) :
    Serves (.lease now queue workerId leaseSeconds batchSize ordering) s s' := by
  refine ⟨trivial, ?_, by simp, by simp, by simp⟩
  simp only [MemOp.apply, hret]
  rfl

theorem Startable.requestedJobs {flow : Flow} {batch : List Entry} (h : Startable σ flow batch) :
    ((batch.map Entry.request).map (·.1)).Nodup := by
  rw [List.map_map]
  exact h.jobs

theorem Startable.requestedIds {flow : Flow} {batch : List Entry} (h : Startable σ flow batch) :
    ((batch.map Entry.request).map (·.2)).Nodup := by
  rw [List.map_map]
  exact h.attempts

theorem Startable.requestedUnused {flow : Flow} {batch : List Entry} (h : Startable σ flow batch) :
    ∀ r ∈ batch.map Entry.request, σ.store.attempts r.2 = none := by
  intro r hr
  obtain ⟨e, he, rfl⟩ := List.mem_map.mp hr
  exact h.unused e he

theorem serves_start {now : DateTime} {flow : Flow} {batch : List Entry}
    {outcome : Outcome (List (Uuid × Uuid × Int))} (hreq : Startable σ flow batch)
    (hret : startAttemptsBatch σ.store now (batch.map Entry.request) flow.workerId = (outcome, s'))
    (hp : outcome ≠ .panic) : Serves (.startAttempts now (batch.map Entry.request) flow.workerId) σ.store s' := by
  refine ⟨⟨hreq.requestedIds, hreq.requestedUnused⟩, ?_, ?_, by simp, by simp⟩
  · simp only [MemOp.apply, hret]
    exact finish_eq hp
  · rintro _ _ _ ⟨⟩
    exact hreq.requestedJobs

theorem serves_heartbeat {now : DateTime} {jobId : Uuid} {workerId : String} {leaseSeconds : Int}
    {outcome : Outcome Bool} (hret : extendLease s now jobId workerId leaseSeconds = (outcome, s'))
    (hp : outcome ≠ .panic) : Serves (.extendLease now jobId workerId leaseSeconds) s s' := by
  refine ⟨trivial, ?_, by simp, by simp, by simp⟩
  simp only [MemOp.apply, hret]
  exact finish_eq hp

theorem serves_reap {now : DateTime} {order : List Uuid} (horder : Enumerates s.jobs order) :
    Serves (.reap now order) s (reapExpiredLocks s now order).2 :=
  ⟨horder, rfl, by simp, by simp, by simp⟩

theorem Ending.serves {now : DateTime} {newId jobId attemptId : Uuid} {workerId : String} {latencyMs : Int}
    {mayRetry : Prop} {r : Outcome Unit × InnerState}
    (h : Ending s now newId jobId attemptId workerId latencyMs mayRetry r) (hnew : Unused s newId) (hp : r.1 ≠ .panic) :
    ∃ op, Serves op s r.2 ∧ ∀ now requests workerId, op ≠ .startAttempts now requests workerId := by
  cases h with
  | succeeded =>
      exact ⟨.markSucceeded now newId jobId attemptId workerId latencyMs,
        ⟨hnew, finish_eq hp, by simp, by simp, by simp⟩, by simp⟩
  | @dead reasonCode errorCode errorMessage =>
      exact ⟨.markDlq now jobId attemptId workerId latencyMs reasonCode errorCode errorMessage,
        ⟨trivial, finish_eq hp, by simp, by simp, by simp⟩, by simp⟩
  | @retried nextRunAt errorCode errorMessage =>
      exact ⟨.reschedule now jobId attemptId workerId latencyMs nextRunAt errorCode errorMessage,
        ⟨trivial, finish_eq hp, by simp, by simp, by simp⟩, by simp⟩

/-- Every action is at most one call of the backend. -/
theorem WorkStep.serves (h : WorkStep σ action σ') :
    σ'.store = σ.store ∨ ∃ op, Serves op σ.store σ'.store := by
  cases h with
  | enqueue hnew horder => exact Or.inr ⟨_, serves_enqueue _ hnew horder _⟩
  | lease hret => exact Or.inr ⟨_, serves_lease hret⟩
  | start hreq hret => exact Or.inr ⟨_, serves_start hreq hret (by simp)⟩
  | startRefused hreq hret => exact Or.inr ⟨_, serves_start hreq hret (by simp)⟩
  | @finish env place attemptId attemptNo flow job outcome s' _ hnew hret hp =>
      have hend := finishJob_ending flow env σ.store job attemptId attemptNo (by rw [hret]; exact hp)
      rw [hret] at hend
      obtain ⟨op, hop, _⟩ := hend.serves hnew hp
      exact Or.inr ⟨op, hop⟩
  | crash => exact Or.inl rfl
  | heartbeat hret hp => exact Or.inr ⟨_, serves_heartbeat hret hp⟩
  | reap horder => exact Or.inr ⟨_, serves_reap horder⟩

/-- What the calls of a run keep: nothing is archived, the attempts are numbered, and every attempt is one of a stored
    job. -/
structure Kept (s : InnerState) : Prop where
  wellFormed : WellFormed s
  keyed : Keyed s
  numbered : Numbered s
  archive : ∀ id, s.archive id = none
  known : ∀ id, s.jobs id = none → attemptCount s id = 0

/-- A stored job stays stored. -/
theorem Kept.job {op : MemOp} (h : Kept s) (hop : Serves op s s') {id : Uuid} {job : Job}
    (hjob : s.jobs id = some job) : ∃ job', s'.jobs id = some job' ∧ JobMove op job job' := by
  have hret : (op.apply s).1 = true := by rw [hop.apply]
  have hentry := apply_jobEntry h.wellFormed op hop.admissible hret id
  have harchive := apply_archive_eq op hret hop.keepsJobs
  rw [hop.apply] at hentry harchive
  cases hentry with
  | stored before after move =>
      rw [hjob] at before
      cases before
      exact ⟨_, after, move⟩
  | absent before after => rw [hjob] at before; cases before
  | archived before status after kept => rw [harchive, h.archive] at kept; cases kept
  | added unused after queued => rw [unused.1] at hjob; cases hjob

/-- A job that is stored afterwards was stored before, or is new and queued. -/
theorem Kept.job_before {op : MemOp} (h : Kept s) (hop : Serves op s s') {id : Uuid} {job' : Job}
    (hjob' : s'.jobs id = some job') :
    (∃ job, s.jobs id = some job ∧ JobMove op job job') ∨ s.jobs id = none ∧ job'.status = "queued" := by
  have hret : (op.apply s).1 = true := by rw [hop.apply]
  have hentry := apply_jobEntry h.wellFormed op hop.admissible hret id
  rw [hop.apply] at hentry
  cases hentry with
  | stored before after move =>
      rw [hjob'] at after
      cases after
      exact Or.inl ⟨_, before, move⟩
  | absent before after => rw [hjob'] at after; cases after
  | archived before status after kept => rw [hjob'] at after; cases after
  | added unused after queued =>
      rw [hjob'] at after
      cases after
      exact Or.inr ⟨unused.1, queued⟩

/-- What a call makes of the counter of a job. -/
theorem Kept.counted {op : MemOp} (h : Kept s) (hop : Serves op s s') (id : Uuid) :
    ∃ workerId, Counted workerId s s' id := by
  have hret : (op.apply s).1 = true := by rw [hop.apply]
  by_cases hstart : ∃ now requests workerId, op = .startAttempts now requests workerId
  · obtain ⟨now, requests, workerId, rfl⟩ := hstart
    have hafter := congrArg Prod.snd hop.apply
    simp only [MemOp.apply, MemOp.finish_snd] at hafter
    have hcounted := (startEach_counted now workerId requests s (hop.startsOnce _ _ _ rfl) hop.admissible.1).1 id
    exact ⟨workerId, hafter ▸ hcounted⟩
  · have hsame := apply_sameNumbers h.keyed op hret (fun now requests workerId heq => hstart ⟨_, _, _, heq⟩)
      hop.keepsHistory
    rw [hop.apply] at hsame
    exact ⟨"", .same (hsame.count id)⟩

theorem Kept.serves {op : MemOp} (h : Kept s) (hop : Serves op s s') : Kept s' := by
  have hret : (op.apply s).1 = true := by rw [hop.apply]
  have hwf := MemOp.apply_wellFormed h.wellFormed op hop.admissible hret
  have hkeyed := apply_keyed h.wellFormed h.keyed op hop.admissible hret
  have hnumbered := apply_numbered h.keyed h.numbered op hop.admissible hret hop.keepsHistory
  have harchive := apply_archive_eq op hret hop.keepsJobs
  rw [hop.apply] at hwf hkeyed hnumbered harchive
  refine ⟨hwf, hkeyed, hnumbered, fun id => by rw [harchive, h.archive], fun id hnone => ?_⟩
  have hbefore : s.jobs id = none := by
    cases hjob : s.jobs id with
    | none => rfl
    | some job =>
        obtain ⟨job', hjob', _⟩ := h.job hop hjob
        rw [hnone] at hjob'
        cases hjob'
  obtain ⟨workerId, hcounted⟩ := h.counted hop id
  cases hcounted with
  | same hcount => rw [hcount, h.known id hbefore]
  | started hleased _ _ _ _ =>
      obtain ⟨job, hjob, _⟩ := hleased
      rw [hbefore] at hjob
      cases hjob

theorem Kept.init : Kept InnerState.init where
  wellFormed := .init
  keyed := by intro a att h; cases h
  numbered := .init
  archive := fun _ => rfl
  known := fun _ _ => rfl

/-! ## The invariant -/

/-- How far a job is, against its budget. A job on its last attempt has that attempt open. -/
inductive Within (s : InnerState) (id : Uuid) (job : Job) : Prop where
  | waiting : job.status = "queued" → attemptCount s id < job.maxAttempts → Within s id job
  | working : job.status = "running" → attemptCount s id < job.maxAttempts → Within s id job
  | lastTry {a : Uuid} {att : MemoryAttempt} : job.status = "running" → attemptCount s id ≤ job.maxAttempts →
      s.attempts a = some att → att.jobId = id → att.status = "running" → Within s id job
  | done {a : Uuid} {att : MemoryAttempt} : job.status = "succeeded" → attemptCount s id ≤ job.maxAttempts →
      s.attempts a = some att → att.jobId = id → att.status = "succeeded" → Within s id job
  | dead : job.status = "dlq" → attemptCount s id ≤ job.maxAttempts → Within s id job

theorem Within.count_le {id : Uuid} {job : Job} (h : Within s id job) : attemptCount s id ≤ job.maxAttempts := by
  cases h with
  | waiting _ hlt => exact hlt.le
  | working _ hlt => exact hlt.le
  | lastTry _ hle _ _ _ => exact hle
  | done _ hle _ _ _ => exact hle
  | dead _ hle => exact hle

/-- A job that is left alone, with its counter and its attempts. -/
theorem Within.frame {id : Uuid} {job job' : Job} (h : Within s id job) (hst : job'.status = job.status)
    (hmax : job'.maxAttempts = job.maxAttempts) (hcount : attemptCount s' id = attemptCount s id)
    (hattempts : ∀ a att, s.attempts a = some att → att.jobId = id → s'.attempts a = some att) :
    Within s' id job' := by
  cases h with
  | waiting h hlt => exact .waiting (hst.trans h) (by rw [hcount, hmax]; exact hlt)
  | working h hlt => exact .working (hst.trans h) (by rw [hcount, hmax]; exact hlt)
  | lastTry h hle hatt hj hrun =>
      exact .lastTry (hst.trans h) (by rw [hcount, hmax]; exact hle) (hattempts _ _ hatt hj) hj hrun
  | done h hle hatt hj hdone =>
      exact .done (hst.trans h) (by rw [hcount, hmax]; exact hle) (hattempts _ _ hatt hj) hj hdone
  | dead h hle => exact .dead (hst.trans h) (by rw [hcount, hmax]; exact hle)

/-- A queued job has attempts left. -/
theorem Within.spare {id : Uuid} {job : Job} (h : Within s id job) (hst : job.status = "queued") :
    attemptCount s id < job.maxAttempts := by
  cases h with
  | waiting _ hlt => exact hlt
  | working h _ => rw [hst] at h; simp at h
  | lastTry h _ _ _ _ => rw [hst] at h; simp at h
  | done h _ _ _ _ => rw [hst] at h; simp at h
  | dead h _ => rw [hst] at h; simp at h

/-- What a worker has in hand fits the store: the job is there with the same budget. A lease that is the last one and not
    yet used leaves the job an attempt and finds none open; an attempt that was started has the number the worker knows. -/
structure Fits (s : InnerState) (holds : List Holding) (place : Nat) (hold : Holding) : Prop where
  stored : ∃ job, s.jobs hold.job.id = some job ∧ job.maxAttempts = hold.job.maxAttempts
  spare : hold.progress = .leased → Latest holds place hold.job.id → 1 ≤ hold.job.maxAttempts →
    attemptCount s hold.job.id < hold.job.maxAttempts
  idle : hold.progress = .leased → Latest holds place hold.job.id → ∀ a att, s.attempts a = some att →
    att.status = "running" → att.jobId ≠ hold.job.id
  numbered : ∀ a no, hold.progress = .started a no →
    ∃ att, s.attempts a = some att ∧ att.jobId = hold.job.id ∧ att.attemptNo = no

/-- An open attempt is the last one of its job. -/
def Newest (s : InnerState) : Prop :=
  ∀ a att, s.attempts a = some att → att.status = "running" → att.attemptNo = attemptCount s att.jobId

/-- The invariant of the workers. -/
structure Crew.Ok (σ : Crew) : Prop where
  kept : Kept σ.store
  openAttempts : OpenAttempts σ.store
  newest : Newest σ.store
  within : ∀ id job, σ.store.jobs id = some job → 1 ≤ job.maxAttempts → Within σ.store id job
  fits : ∀ (n : Nat) (hold : Holding), σ.holds[n]? = some hold → Fits σ.store σ.holds n hold

/-- A holding of a job that nobody starts meanwhile. -/
theorem Fits.frame {holds holds' : List Holding} {place : Nat} {hold hold' : Holding} (h : Fits s holds place hold)
    (hjob : hold'.job = hold.job) (hprogress : hold'.progress = hold.progress ∨ hold'.progress = .over)
    (hstored : ∀ job, s.jobs hold.job.id = some job → ∃ job', s'.jobs hold.job.id = some job' ∧
      job'.maxAttempts = job.maxAttempts)
    (hlatest : Latest holds' place hold.job.id → Latest holds place hold.job.id)
    (hkept : ∀ a att, s.attempts a = some att →
      ∃ att', s'.attempts a = some att' ∧ att'.jobId = att.jobId ∧ att'.attemptNo = att.attemptNo)
    (hstill : hold'.progress = .leased → Latest holds place hold.job.id →
      attemptCount s' hold.job.id = attemptCount s hold.job.id ∧ ∀ a att, s'.attempts a = some att →
        att.status = "running" → att.jobId = hold.job.id → s.attempts a = some att) :
    Fits s' holds' place hold' := by
  have hsame : hold'.progress ≠ .over → hold'.progress = hold.progress := fun hne => hprogress.resolve_right hne
  constructor
  · obtain ⟨job, hj, hmax⟩ := h.stored
    obtain ⟨job', hj', hmax'⟩ := hstored job hj
    exact ⟨job', by rw [hjob]; exact hj', by rw [hjob, hmax', hmax]⟩
  · intro hl hlast hle
    rw [hjob] at hlast hle ⊢
    rw [(hstill hl (hlatest hlast)).1]
    exact h.spare ((hsame (by simp [hl])).symm.trans hl) (hlatest hlast) hle
  · intro hl hlast a att hatt hopen hj
    rw [hjob] at hlast hj
    have hbefore := (hstill hl (hlatest hlast)).2 a att hatt hopen hj
    exact h.idle ((hsame (by simp [hl])).symm.trans hl) (hlatest hlast) a att hbefore hopen hj
  · intro a no hst
    obtain ⟨att, hatt, hj, hno⟩ := h.numbered a no ((hsame (by simp [hst])).symm.trans hst)
    obtain ⟨att', hatt', hj', hno'⟩ := hkept a att hatt
    exact ⟨att', hatt', by rw [hjob, hj', hj], hno'.trans hno⟩

/-! ## One action -/

theorem Kept.count_eq {op : MemOp} (h : Kept s) (hop : Serves op s s')
    (hstart : ∀ now requests workerId, op ≠ .startAttempts now requests workerId) (id : Uuid) :
    attemptCount s' id = attemptCount s id := by
  have hsame := apply_sameNumbers h.keyed op (by rw [hop.apply]) hstart hop.keepsHistory
  rw [hop.apply] at hsame
  exact hsame.count id

/-- What is open after a call that starts no attempt was open before. -/
theorem Kept.open_before {op : MemOp} (h : Kept s) (hop : Serves op s s')
    (hstart : ∀ now requests workerId, op ≠ .startAttempts now requests workerId) {a : Uuid} {att : MemoryAttempt}
    (hatt : s'.attempts a = some att) (hopen : att.status = "running") : s.attempts a = some att := by
  have hentry := apply_attemptEntry h.wellFormed h.keyed op hop.admissible (by rw [hop.apply]) a
  rw [hop.apply] at hentry
  have hdrawn : op.drawn = [] := by
    cases op with
    | startAttempts now requests workerId => exact absurd rfl (hstart now requests workerId)
    | _ => rfl
  exact hentry.open_before (by rw [hdrawn]; exact List.not_mem_nil) hatt hopen

theorem Kept.newest {op : MemOp} (h : Kept s) (hop : Serves op s s')
    (hstart : ∀ now requests workerId, op ≠ .startAttempts now requests workerId) (hn : Newest s) : Newest s' := by
  intro a att hatt hopen
  rw [h.count_eq hop hstart]
  exact hn a att (h.open_before hop hstart hatt hopen) hopen

theorem Kept.openAttempts {op : MemOp} (h : Kept s) (hop : Serves op s s')
    (hstart : ∀ now requests workerId, op ≠ .startAttempts now requests workerId) (ho : OpenAttempts s) :
    OpenAttempts s' := by
  have hstep : backendSystem.step s (.job op) s' := ⟨hop.admissible, hop.apply⟩
  refine openAttempts_of_step h.wellFormed h.keyed ho hstep ?_
  cases op with
  | startAttempts now requests workerId => exact absurd rfl (hstart now requests workerId)
  | _ => trivial

/-- A new job has all its attempts before it. -/
theorem Kept.within_new {op : MemOp} (h : Kept s) (hop : Serves op s s') {id : Uuid} {job : Job}
    (hnone : s.jobs id = none) (hst : job.status = "queued") (hmax : 1 ≤ job.maxAttempts) : Within s' id job := by
  refine .waiting hst ?_
  obtain ⟨workerId, hcounted⟩ := h.counted hop id
  cases hcounted with
  | same hcount =>
      rw [hcount, h.known id hnone]
      omega
  | started hleased _ _ _ _ =>
      obtain ⟨job', hjob', _⟩ := hleased
      rw [hnone] at hjob'
      cases hjob'

/-- A call that starts and closes no attempt: jobs keep their status, or are taken out of the queue. -/
theorem Crew.Ok.within_of_attempts {op : MemOp} (h : σ.Ok) (hop : Serves op σ.store s')
    (hcount : ∀ id, attemptCount s' id = attemptCount σ.store id) (hattempts : s'.attempts = σ.store.attempts)
    (hmove : ∀ job job' : Job, JobMove op job job' → job'.status = job.status ∨
      job.status = "queued" ∧ (job'.status = "running" ∨ job'.status = "dlq"))
    (id : Uuid) (job' : Job) (hjob' : s'.jobs id = some job') (hmax : 1 ≤ job'.maxAttempts) : Within s' id job' := by
  rcases h.kept.job_before hop hjob' with ⟨job, hjob, hm⟩ | ⟨hnone, hst⟩
  · rw [hm.maxAttempts] at hmax
    have hwithin := h.within id job hjob hmax
    rcases hmove job job' hm with hst | ⟨hq, hst⟩
    · exact hwithin.frame hst hm.maxAttempts (hcount id) fun a att hatt _ => by rw [hattempts]; exact hatt
    · have hspare := hwithin.spare hq
      rw [← hcount id, ← hm.maxAttempts] at hspare
      rcases hst with hrun | hdlq
      · exact .working hrun hspare
      · exact .dead hdlq hspare.le
  · exact h.kept.within_new hop hnone hst hmax

/-- An accepted acknowledgement: what is left to say is what becomes of its own job. -/
theorem Crew.Ok.within_of_accepted {op : MemOp} (h : σ.Ok) (hop : Serves op σ.store s') {jobId attemptId : Uuid}
    {workerId : String} {close : MemoryAttempt → MemoryAttempt}
    (hacc : Accepted σ.store s' jobId attemptId workerId close)
    (hothers : ∀ id job, id ≠ jobId → σ.store.jobs id = some job → s'.jobs id = some job)
    (hthis : ∀ job job', σ.store.jobs jobId = some job → job.status = "running" → s'.jobs jobId = some job' →
      JobMove op job job' → attemptCount s' jobId ≤ job'.maxAttempts → Within s' jobId job')
    (id : Uuid) (job' : Job) (hjob' : s'.jobs id = some job') (hmax : 1 ≤ job'.maxAttempts) : Within s' id job' := by
  have hcount : ∀ id, attemptCount s' id = attemptCount σ.store id := by
    intro id
    rw [attemptCount, attemptCount, hacc.attemptCounts]
  obtain ⟨att, hatt, _, hj, hmap⟩ := hacc.attempt
  rcases h.kept.job_before hop hjob' with ⟨job, hjob, hm⟩ | ⟨hnone, hst⟩
  · rw [hm.maxAttempts] at hmax
    have hwithin := h.within id job hjob hmax
    -- the job of the acknowledgement is the business of `hthis`; of any other neither record nor attempts change
    by_cases hid : id = jobId
    · subst hid
      obtain ⟨leased, hleased, hrun, _⟩ := hacc.lease
      rw [hjob] at hleased
      cases hleased
      refine hthis job job' hjob hrun hjob' hm ?_
      rw [hcount, hm.maxAttempts]
      exact hwithin.count_le
    · have hsame := hothers id job hid hjob
      rw [hjob'] at hsame
      cases hsame
      refine hwithin.frame rfl rfl (hcount id) fun a att' hatt' hj' => ?_
      have hne : a ≠ attemptId := by
        rintro rfl
        rw [hatt] at hatt'
        cases hatt'
        exact hid (hj'.symm.trans hj)
      rw [hmap, Function.update_of_ne hne]
      exact hatt'
  · exact h.kept.within_new hop hnone hst hmax

/-- The end of a job keeps the budget: a retry needs an attempt that is left. -/
theorem Crew.Ok.within_of_ending (h : σ.Ok) {now : DateTime} {newId jobId attemptId : Uuid} {workerId : String}
    {latencyMs : Int} {mayRetry : Prop} {r : Outcome Unit × InnerState}
    (hend : Ending σ.store now newId jobId attemptId workerId latencyMs mayRetry r) (hnew : Unused σ.store newId)
    (hp : r.1 ≠ .panic)
    (hretry : mayRetry → ∀ job, σ.store.jobs jobId = some job → ∀ att, σ.store.attempts attemptId = some att →
      att.status = "running" → att.jobId = jobId → attemptCount σ.store jobId < job.maxAttempts)
    (id : Uuid) (job' : Job) (hjob' : r.2.jobs id = some job') (hmax : 1 ≤ job'.maxAttempts) :
    Within r.2 id job' := by
  cases hend with
  | succeeded =>
      have hop : Serves (.markSucceeded now newId jobId attemptId workerId latencyMs) σ.store
          (markSucceeded σ.store now newId jobId attemptId workerId latencyMs).2 :=
        ⟨hnew, finish_eq hp, by simp, by simp, by simp⟩
      -- a refused acknowledgement changes nothing
      rcases markSucceeded_accepted σ.store now newId jobId attemptId workerId latencyMs with ⟨hsame, _⟩ | ⟨hok, hacc⟩
      · rw [hsame] at hjob' ⊢
        exact h.within id job' hjob' hmax
      · have hacked := markSucceeded_acked hnew.1 (Prod.ext hok rfl)
        refine h.within_of_accepted hop hacc (fun i job hi hjob => ?_) ?_ id job' hjob' hmax
        · rw [← hjob]
          refine hacked.jobs i hi ?_
          rintro rfl
          rw [hnew.1] at hjob
          cases hjob
        · intro job job' hjob hrun hafter hmove hle
          obtain ⟨att, hatt, hopen, hj, hmap⟩ := hacc.attempt
          have hst : job'.status = "succeeded" := by
            cases hmove with
            | keep => exact absurd hrun (hacked.not_running hafter)
            | succeed _ _ => rfl
          have hdone : (markSucceeded σ.store now newId jobId attemptId workerId latencyMs).2.attempts attemptId =
              some (succeededAttempt now latencyMs att) := by rw [hmap, Function.update_self]
          exact .done hst hle hdone hj rfl
  | @dead reasonCode errorCode errorMessage =>
      have hop : Serves (.markDlq now jobId attemptId workerId latencyMs reasonCode errorCode errorMessage) σ.store
          (markDlq σ.store now jobId attemptId workerId latencyMs reasonCode errorCode errorMessage).2 :=
        ⟨trivial, finish_eq hp, by simp, by simp, by simp⟩
      rcases markDlq_accepted σ.store now jobId attemptId workerId latencyMs reasonCode errorCode errorMessage with
        ⟨hsame, _⟩ | ⟨hok, hacc⟩
      · rw [hsame] at hjob' ⊢
        exact h.within id job' hjob' hmax
      · have hacked := markDlq_acked (Prod.ext hok rfl) jobId
        refine h.within_of_accepted hop hacc (fun i job hi hjob => (hacked.jobs i hi hi).trans hjob) ?_ id job' hjob'
          hmax
        intro job job' hjob hrun hafter hmove hle
        cases hmove with
        | keep => exact absurd hrun (hacked.not_running hafter)
        | deadLetter _ _ => exact .dead rfl hle
  | @retried nextRunAt errorCode errorMessage hmay =>
      have hop : Serves (.reschedule now jobId attemptId workerId latencyMs nextRunAt errorCode errorMessage) σ.store
          (rescheduleForRetry σ.store now jobId attemptId workerId latencyMs nextRunAt errorCode errorMessage).2 :=
        ⟨trivial, finish_eq hp, by simp, by simp, by simp⟩
      rcases rescheduleForRetry_accepted σ.store now jobId attemptId workerId latencyMs nextRunAt errorCode
        errorMessage with ⟨hsame, _⟩ | ⟨hok, hacc⟩
      · rw [hsame] at hjob' ⊢
        exact h.within id job' hjob' hmax
      · have hacked := rescheduleForRetry_acked (Prod.ext hok rfl) jobId
        refine h.within_of_accepted hop hacc (fun i job hi hjob => (hacked.jobs i hi hi).trans hjob) ?_ id job' hjob'
          hmax
        intro job job' hjob hrun hafter hmove _
        -- the retry leaves the counter alone, and the failure rule found it below the budget
        have hlt : attemptCount (rescheduleForRetry σ.store now jobId attemptId workerId latencyMs nextRunAt errorCode
            errorMessage).2 jobId < job'.maxAttempts := by
          rw [attemptCount, hacc.attemptCounts, hmove.maxAttempts]
          obtain ⟨att, hatt, hopen, hj, _⟩ := hacc.attempt
          exact hretry hmay job hjob att hatt hopen hj
        cases hmove with
        | keep => exact absurd hrun (hacked.not_running hafter)
        | retry _ _ => exact .waiting rfl hlt

/-- The reaper keeps the budget of every job whose lease it does not take back, and of those that have attempts left. -/
theorem Crew.Ok.within_of_reap (h : σ.Ok) {now : DateTime} {order : List Uuid}
    (horder : Enumerates σ.store.jobs order)
    (hspared : ∀ id job, σ.store.jobs id = some job → leaseExpired now job = true → 1 ≤ job.maxAttempts →
      attemptCount σ.store id < job.maxAttempts)
    (id : Uuid) (job' : Job) (hjob' : (reapExpiredLocks σ.store now order).2.jobs id = some job')
    (hmax : 1 ≤ job'.maxAttempts) : Within (reapExpiredLocks σ.store now order).2 id job' := by
  have hcount := (reap_sameNumbers σ.store now order).count id
  rw [(reap_jobs σ.store now order).1] at hjob'
  by_cases hin : id ∈ ((order.filterMap σ.store.jobs).filter (leaseExpired now)).map (·.id)
  · obtain ⟨job, hjob, hexp⟩ := (mem_expired h.kept.wellFormed horder).mp hin
    rw [mapAt_of_mem hin, hjob, Option.map_some, Option.some.injEq] at hjob'
    subst hjob'
    exact .waiting rfl (by rw [hcount]; exact hspared id job hjob hexp hmax)
  · rw [mapAt_of_not_mem hin] at hjob'
    refine (h.within id job' hjob' hmax).frame rfl rfl hcount fun a att hatt hj => ?_
    rw [reap_attempts, hatt, Option.map_some, if_neg]
    rintro ⟨hmem, _⟩
    exact hin (hj ▸ hmem)

/-! ### Starting a batch -/

section Start

variable {flow : Flow} {batch : List Entry}

/-- Where an attempt is started, the lease is the last one of the job, and not yet used. -/
theorem Crew.Ok.entry_of_leased (h : σ.Ok) (hreq : Startable σ flow batch)
    (htime : ∀ e ∈ batch, Leased σ.store flow.workerId e.jobId → Latest σ.holds e.place e.jobId) {id : Uuid}
    (hin : id ∈ (batch.map Entry.request).map (·.1)) (hleased : Leased σ.store flow.workerId id) :
    ∃ e ∈ batch, ∃ job, σ.holds[e.place]? = some ⟨flow, job, .leased⟩ ∧ job.id = id ∧ Latest σ.holds e.place id ∧
      Fits σ.store σ.holds e.place ⟨flow, job, .leased⟩ := by
  rw [List.map_map] at hin
  obtain ⟨e, he, rfl⟩ := List.mem_map.mp hin
  obtain ⟨job, hhold, hid⟩ := hreq.held e he
  exact ⟨e, he, job, hhold, hid, htime e he hleased, h.fits _ _ hhold⟩

/-- So no attempt of it is open. -/
theorem Crew.Ok.idle_of_leased (h : σ.Ok) (hreq : Startable σ flow batch)
    (htime : ∀ e ∈ batch, Leased σ.store flow.workerId e.jobId → Latest σ.holds e.place e.jobId) {id : Uuid}
    (hin : id ∈ (batch.map Entry.request).map (·.1)) (hleased : Leased σ.store flow.workerId id) {a : Uuid}
    {att : MemoryAttempt} (hatt : σ.store.attempts a = some att) (hopen : att.status = "running") : att.jobId ≠ id := by
  obtain ⟨e, _, job, _, rfl, hlatest, hfits⟩ := h.entry_of_leased hreq htime hin hleased
  exact hfits.idle rfl hlatest a att hatt hopen

/-- Starting attempts leaves those there are. -/
theorem Startable.attempts_kept (hreq : Startable σ flow batch) (now : DateTime) {a : Uuid} {att : MemoryAttempt}
    (hatt : σ.store.attempts a = some att) :
    (startAttemptsBatch σ.store now (batch.map Entry.request) flow.workerId).2.attempts a = some att := by
  rcases startEach_attempts now flow.workerId (batch.map Entry.request) σ.store hreq.requestedIds a with
    hsame | ⟨_, _, _, hin, _⟩
  · exact hsame.trans hatt
  · rw [hreq.requestedUnused _ hin] at hatt
    cases hatt

/-- Only jobs of the batch that the worker leases are counted. -/
theorem Startable.counted (hreq : Startable σ flow batch) (now : DateTime) (id : Uuid) :
    attemptCount (startAttemptsBatch σ.store now (batch.map Entry.request) flow.workerId).2 id =
        attemptCount σ.store id ∨
      id ∈ (batch.map Entry.request).map (·.1) ∧ Leased σ.store flow.workerId id := by
  obtain ⟨hcounted, hout, _⟩ := startEach_counted now flow.workerId (batch.map Entry.request) σ.store hreq.requestedJobs
    hreq.requestedIds
  cases hcounted id with
  | same hcount => exact Or.inl hcount
  | started hleased _ _ _ _ =>
      by_cases hin : id ∈ (batch.map Entry.request).map (·.1)
      · exact Or.inr ⟨hin, hleased⟩
      · exact Or.inl (hout id hin)

/-- An open attempt afterwards was open before, or is a new one of a job that the worker leases. -/
theorem Startable.open_cases (hreq : Startable σ flow batch) {now : DateTime} {a : Uuid} {att : MemoryAttempt}
    (hatt : (startAttemptsBatch σ.store now (batch.map Entry.request) flow.workerId).2.attempts a = some att) :
    σ.store.attempts a = some att ∨
      σ.store.attempts a = none ∧ att.jobId ∈ (batch.map Entry.request).map (·.1) ∧
        Leased σ.store flow.workerId att.jobId := by
  rcases startEach_attempts now flow.workerId (batch.map Entry.request) σ.store hreq.requestedIds a with
    hsame | ⟨jobId, no, job, hin, hjob, hst, hby, hafter⟩
  · exact Or.inl (hsame.symm.trans hatt)
  · have hstart := hafter.symm.trans hatt
    cases hstart
    exact Or.inr ⟨hreq.requestedUnused _ hin, List.mem_map_of_mem hin, job, hjob, hst, hby⟩

theorem Crew.Ok.openAttempts_of_start (h : σ.Ok) (now : DateTime) (hreq : Startable σ flow batch)
    (htime : ∀ e ∈ batch, Leased σ.store flow.workerId e.jobId → Latest σ.holds e.place e.jobId) :
    OpenAttempts (startAttemptsBatch σ.store now (batch.map Entry.request) flow.workerId).2 :=
  startAttemptsBatch_openAttempts h.openAttempts hreq.requestedIds hreq.requestedJobs fun _ hr hleased _ _ =>
    h.idle_of_leased hreq htime (List.mem_map_of_mem hr) hleased

theorem Crew.Ok.newest_of_start (h : σ.Ok) (now : DateTime) (hreq : Startable σ flow batch)
    (htime : ∀ e ∈ batch, Leased σ.store flow.workerId e.jobId → Latest σ.holds e.place e.jobId) :
    Newest (startAttemptsBatch σ.store now (batch.map Entry.request) flow.workerId).2 := by
  intro a att hatt hopen
  rcases hreq.open_cases hatt with hbefore | ⟨hnew, _⟩
  · -- a job that was counted had no open attempt
    rcases hreq.counted now att.jobId with hsame | ⟨hin, hleased⟩
    · rw [hsame]
      exact h.newest a att hbefore hopen
    · exact absurd rfl (h.idle_of_leased hreq htime hin hleased hbefore hopen)
  · obtain ⟨hcounted, _, _⟩ := startEach_counted now flow.workerId (batch.map Entry.request) σ.store hreq.requestedJobs
      hreq.requestedIds
    have hnumbered : Numbered (startAttemptsBatch σ.store now (batch.map Entry.request) flow.workerId).2 :=
      startEach_numbered now flow.workerId _ σ.store h.kept.numbered hreq.requestedIds hreq.requestedUnused
    exact h.kept.numbered.attemptNo_of_new hnumbered (fun _ _ hold => hreq.attempts_kept now hold) hnew hatt
      (hcounted att.jobId).le

/-- Starting attempts of jobs that have some left. -/
theorem Crew.Ok.within_of_start (h : σ.Ok) (now : DateTime) (hreq : Startable σ flow batch)
    (htime : ∀ e ∈ batch, Leased σ.store flow.workerId e.jobId → Latest σ.holds e.place e.jobId) (id : Uuid) (job : Job)
    (hjob : (startAttemptsBatch σ.store now (batch.map Entry.request) flow.workerId).2.jobs id = some job)
    (hmax : 1 ≤ job.maxAttempts) :
    Within (startAttemptsBatch σ.store now (batch.map Entry.request) flow.workerId).2 id job := by
  obtain ⟨hcounted, hout, _⟩ := startEach_counted now flow.workerId (batch.map Entry.request) σ.store hreq.requestedJobs
    hreq.requestedIds
  have hjobs : (startAttemptsBatch σ.store now (batch.map Entry.request) flow.workerId).2.jobs = σ.store.jobs :=
    (startEach_frame _ σ.store).1
  rw [hjobs] at hjob
  cases hcounted id with
  | same hcount => exact (h.within id job hjob hmax).frame rfl rfl hcount fun _ _ hatt _ => hreq.attempts_kept now hatt
  | started hleased hcount hatt hj hopen =>
      have hin : id ∈ (batch.map Entry.request).map (·.1) := by
        by_contra hnot
        have hsame := hout id hnot
        omega
      -- the lease was not used, so the job has an attempt left
      obtain ⟨e, _, copy, _, rfl, hlatest, hfits⟩ := h.entry_of_leased hreq htime hin hleased
      obtain ⟨stored, hstored, hsame⟩ := hfits.stored
      obtain ⟨leased, hrunning, hst, _⟩ := hleased
      rw [hjob] at hstored hrunning
      cases hstored
      cases hrunning
      have hlt := hfits.spare rfl hlatest (hsame ▸ hmax)
      refine .lastTry hst ?_ hatt hj hopen
      show attemptCount _ copy.id ≤ _
      rw [startAttemptsBatch, hcount, hsame]
      exact hlt

end Start

/-! ### The holdings -/

/-- A call that starts no attempt keeps what a worker has in hand fit. -/
theorem Crew.Ok.fits_of_serves {op : MemOp} (h : σ.Ok) (hop : Serves op σ.store s')
    (hstart : ∀ now requests workerId, op ≠ .startAttempts now requests workerId) {holds' : List Holding} {n : Nat}
    {hold hold' : Holding} (hhold : σ.holds[n]? = some hold) (hjob : hold'.job = hold.job)
    (hprogress : hold'.progress = hold.progress ∨ hold'.progress = .over)
    (hlatest : Latest holds' n hold.job.id → Latest σ.holds n hold.job.id) : Fits s' holds' n hold' := by
  have hsame := apply_sameNumbers h.kept.keyed op (by rw [hop.apply]) hstart hop.keepsHistory
  rw [hop.apply] at hsame
  refine (h.fits n hold hhold).frame hjob hprogress (fun job hj => ?_) hlatest (fun a att hatt => hsame.after hatt)
    fun _ _ => ⟨hsame.count _, fun a att hatt hopen _ => h.kept.open_before hop hstart hatt hopen⟩
  obtain ⟨job', hj', hmove⟩ := h.kept.job hop hj
  exact ⟨job', hj', hmove.maxAttempts⟩

/-- A job that is dropped is one that was held. -/
theorem dropHolding_some {place n : Nat} {holds : List Holding} {hold' : Holding}
    (h : (dropHolding place holds)[n]? = some hold') :
    ∃ hold, holds[n]? = some hold ∧ hold'.job = hold.job ∧
      (hold'.progress = hold.progress ∨ hold'.progress = .over) := by
  rw [dropHolding, List.getElem?_modify] at h
  obtain ⟨hold, hhold, rfl⟩ := Option.map_eq_some_iff.mp h
  refine ⟨hold, hhold, ?_⟩
  split
  · exact ⟨rfl, Or.inr rfl⟩
  · exact ⟨rfl, Or.inl rfl⟩

/-- Dropping a holding changes no job. -/
theorem latest_of_drop {place n : Nat} {holds : List Holding} {id : Uuid}
    (h : Latest (dropHolding place holds) n id) : Latest holds n id := by
  intro m hold hhold hid
  refine h m (if place = m then { hold with progress := .over } else hold) ?_ ?_
  · rw [dropHolding, List.getElem?_modify, hhold]
    rfl
  · split <;> exact hid

/-- A leased job has attempts left, and none of them is open. -/
theorem Crew.Ok.fits_of_lease (h : σ.Ok) {flow : Flow} {now : DateTime} {batchSize : Int} {leased : List Job}
    (hret : leaseJobsBatchWithOrdering σ.store now flow.queue flow.workerId flow.leaseSeconds batchSize flow.ordering =
      (.ok leased, s'))
    (hop : Serves (.lease now flow.queue flow.workerId flow.leaseSeconds batchSize flow.ordering) σ.store s')
    (n : Nat) (hold : Holding) (hhold : (takeJobs flow leased σ.holds)[n]? = some hold) :
    Fits s' (takeJobs flow leased σ.holds) n hold := by
  by_cases hn : n < σ.holds.length
  · rw [takeJobs, List.getElem?_append_left hn] at hhold
    refine h.fits_of_serves hop (by simp) hhold rfl (Or.inl rfl) fun hlatest m old hold' hid => ?_
    have hm : m < σ.holds.length := (List.getElem?_eq_some_iff.mp hold').1
    exact hlatest m old (by rw [takeJobs, List.getElem?_append_left hm]; exact hold') hid
  · rw [takeJobs, List.getElem?_append_right (not_lt.mp hn)] at hhold
    obtain ⟨job, hmem, rfl⟩ := List.mem_map.mp (List.mem_of_getElem? hhold)
    obtain ⟨t, before, hbefore, hst, hleased⟩ := leased_before h.kept.wellFormed hret hmem
    have hmax : job.maxAttempts = before.maxAttempts := by rw [hleased]; rfl
    refine ⟨⟨job, ((leased_spec h.kept.wellFormed hret).2 job hmem).1, rfl⟩, fun _ _ hle => ?_,
      fun _ _ a att hatt hopen hj => ?_, by simp⟩
    · rw [h.kept.count_eq hop (by simp)]
      show attemptCount σ.store job.id < job.maxAttempts
      rw [hmax]
      exact (h.within _ before hbefore (hmax ▸ hle)).spare hst
    · -- an attempt that is open was open while the job was queued
      obtain ⟨running, hrunning, hrun, _⟩ :=
        h.openAttempts.held a att (h.kept.open_before hop (by simp) hatt hopen) hopen
      have hj' : att.jobId = job.id := hj
      rw [hj', hbefore] at hrunning
      cases hrunning
      rw [hst] at hrun
      simp at hrun

theorem getElem?_giveAttempts (batch : List Entry) (started : List (Uuid × Uuid × Int)) (holds : List Holding)
    (n : Nat) : (giveAttempts batch started holds)[n]? = (holds[n]?).map fun hold =>
      (batch.find? (fun e => e.place == n)).elim hold fun e => { hold with progress := e.progress started } := by
  rw [giveAttempts, List.getElem?_mapIdx]

/-- Starting attempts changes no job that is held. -/
theorem latest_of_give {batch : List Entry} {started : List (Uuid × Uuid × Int)} {n : Nat} {holds : List Holding}
    {id : Uuid} (h : Latest (giveAttempts batch started holds) n id) : Latest holds n id := by
  intro m hold hhold hid
  refine h m _ (by rw [getElem?_giveAttempts, hhold, Option.map_some]) ?_
  cases batch.find? (fun e => e.place == m) <;> exact hid

/-- After a batch was started, or refused at some point: what the answer gives each of its jobs is the last attempt. -/
theorem Crew.Ok.fits_of_start (h : σ.Ok) {flow : Flow} {now : DateTime} {batch : List Entry}
    {outcome : Outcome (List (Uuid × Uuid × Int))} {started : List (Uuid × Uuid × Int)} (hreq : Startable σ flow batch)
    (htime : ∀ e ∈ batch, Leased σ.store flow.workerId e.jobId → Latest σ.holds e.place e.jobId)
    (hret : startAttemptsBatch σ.store now (batch.map Entry.request) flow.workerId = (outcome, s'))
    (hstarted : ∀ r ∈ started, ∃ att, s'.attempts r.2.1 = some att ∧ att.jobId = r.1 ∧ att.attemptNo = r.2.2)
    (n : Nat) (hold' : Holding) (hhold' : (giveAttempts batch started σ.holds)[n]? = some hold') :
    Fits s' (giveAttempts batch started σ.holds) n hold' := by
  have hjobs : (startAttemptsBatch σ.store now (batch.map Entry.request) flow.workerId).2.jobs = σ.store.jobs :=
    (startEach_frame _ σ.store).1
  have hkept : ∀ a att, σ.store.attempts a = some att → s'.attempts a = some att := by
    intro a att hatt
    have hafter := hreq.attempts_kept now hatt
    rwa [hret] at hafter
  rw [hret] at hjobs
  rw [getElem?_giveAttempts] at hhold'
  obtain ⟨hold, hhold, rfl⟩ := Option.map_eq_some_iff.mp hhold'
  have hfits := h.fits n hold hhold
  cases hfind : batch.find? (fun e => e.place == n) with
  | none =>
      -- a holding outside the batch: if its lease is the last one and not yet used, its job was not started
      rw [Option.elim_none]
      have hout : ∀ id, hold.job.id = id → Latest σ.holds n id →
          ¬(id ∈ (batch.map Entry.request).map (·.1) ∧ Leased σ.store flow.workerId id) := by
        rintro id rfl hlatest ⟨hin, hleased⟩
        obtain ⟨e, he, job, hheld, hid, hlast, _⟩ := h.entry_of_leased hreq htime hin hleased
        have hplace : e.place = n :=
          Nat.le_antisymm (hlatest _ _ hheld hid) (hlast n hold hhold rfl)
        have hnot := List.find?_eq_none.mp hfind e he
        simp [hplace] at hnot
      refine hfits.frame rfl (Or.inl rfl) (fun job hj => ⟨job, by rw [hjobs]; exact hj, rfl⟩) latest_of_give
        (fun a att hatt => ⟨att, hkept a att hatt, rfl, rfl⟩) fun _ hlatest => ⟨?_, fun a att hatt _ hj => ?_⟩
      · have hcounted := hreq.counted now hold.job.id
        rw [hret] at hcounted
        exact hcounted.resolve_right (hout _ rfl hlatest)
      · have hafter :
            (startAttemptsBatch σ.store now (batch.map Entry.request) flow.workerId).2.attempts a = some att := by
          rw [hret]
          exact hatt
        rcases hreq.open_cases hafter with hbefore | ⟨_, hin⟩
        · exact hbefore
        · rw [hj] at hin
          exact absurd hin (hout _ rfl hlatest)
  | some e =>
      have he := List.mem_of_find?_eq_some hfind
      have hplace : e.place = n := by simpa using List.find?_some hfind
      obtain ⟨job, hheld, hid⟩ := hreq.held e he
      rw [hplace, hhold] at hheld
      cases hheld
      obtain ⟨stored, hstored, hmax⟩ := hfits.stored
      have hprogress : ∀ p, e.progress started = p →
          p = .over ∨ ∃ r ∈ started, r.1 = e.jobId ∧ p = .started r.2.1 r.2.2 := by
        rintro _ rfl
        unfold Entry.progress
        cases hr : started.find? (fun r => r.1 == e.jobId) with
        | none => exact Or.inl rfl
        | some r => exact Or.inr ⟨r, List.mem_of_find?_eq_some hr, by simpa using List.find?_some hr, rfl⟩
      refine ⟨⟨stored, by rw [hjobs]; exact hstored, hmax⟩, fun hl => ?_, fun hl => ?_, fun a no hst => ?_⟩
      · rcases hprogress _ hl with hover | ⟨r, _, _, hr⟩
        · cases hover
        · cases hr
      · rcases hprogress _ hl with hover | ⟨r, _, _, hr⟩
        · cases hover
        · cases hr
      · rcases hprogress _ hst with hover | ⟨r, hr, hj, heq⟩
        · cases hover
        · cases heq
          obtain ⟨att, hatt, hjob, hno⟩ := hstarted r hr
          exact ⟨att, hatt, hjob.trans (hj.trans hid.symm), hno⟩

/-- A call that starts no attempt: what is left to say is what becomes of the budgets and of the holdings. -/
theorem Crew.Ok.of_serves {op : MemOp} (h : σ.Ok) (hop : Serves op σ.store s')
    (hstart : ∀ now requests workerId, op ≠ .startAttempts now requests workerId) {holds' : List Holding}
    (hwithin : ∀ id job, s'.jobs id = some job → 1 ≤ job.maxAttempts → Within s' id job)
    (hfits : ∀ n hold, holds'[n]? = some hold → Fits s' holds' n hold) :
    Crew.Ok { store := s', holds := holds' } where
  kept := h.kept.serves hop
  openAttempts := h.kept.openAttempts hop hstart h.openAttempts
  newest := h.kept.newest hop hstart h.newest
  within := hwithin
  fits := hfits

/-- A call that leaves the holdings alone. -/
theorem Crew.Ok.of_call {op : MemOp} (h : σ.Ok) (hop : Serves op σ.store s')
    (hstart : ∀ now requests workerId, op ≠ .startAttempts now requests workerId)
    (hwithin : ∀ id job, s'.jobs id = some job → 1 ≤ job.maxAttempts → Within s' id job) :
    Crew.Ok { σ with store := s' } :=
  h.of_serves hop hstart hwithin fun _ _ hhold => h.fits_of_serves hop hstart hhold rfl (Or.inl rfl) id

/-- **The step lemma.** Every orderly action keeps the invariant. -/
theorem Crew.Ok.step (h : σ.Ok) (hstep : WorkStep σ action σ') (horderly : Orderly σ action σ') : σ'.Ok := by
  have hkept : Kept σ'.store := by
    rcases hstep.serves with hsame | ⟨op, hop⟩
    · exact hsame ▸ h.kept
    · exact h.kept.serves hop
  cases hstep with
  | @enqueue now newId order job hnew horder =>
      have hop := serves_enqueue now hnew horder job
      have honly := enqueue_onlyJobs σ.store now newId order job
      refine h.of_call hop (by simp) (h.within_of_attempts hop (h.kept.count_eq hop (by simp)) honly.attempts ?_)
      intro j j' hmove
      cases hmove
      exact Or.inl rfl
  | @lease flow now batchSize leased s' hret =>
      have hop := serves_lease hret
      obtain ⟨_, _, _, honly⟩ := lease_jobs flow.queue flow.workerId flow.leaseSeconds batchSize flow.ordering
        (by rw [hret]; simp)
      rw [hret] at honly
      refine h.of_serves hop (by simp) (h.within_of_attempts hop (h.kept.count_eq hop (by simp)) honly.attempts ?_)
        (h.fits_of_lease hret hop)
      intro j j' hmove
      cases hmove with
      | keep => exact Or.inl rfl
      | missDeadline hq _ _ _ => exact Or.inr ⟨hq, Or.inr rfl⟩
      | lease hq _ => exact Or.inr ⟨hq, Or.inl rfl⟩
  | @start flow now batch started s' hreq hret =>
      have htime := horderly.inTime flow now batch rfl
      have hopen := h.openAttempts_of_start now hreq htime
      have hnewest := h.newest_of_start now hreq htime
      have hwithin := h.within_of_start now hreq htime
      rw [hret] at hopen hnewest hwithin
      refine ⟨hkept, hopen, hnewest, hwithin, h.fits_of_start hreq htime hret fun r hr => ?_⟩
      have hret' : startEach now flow.workerId (batch.map Entry.request) σ.store = (.ok started, s') := hret
      obtain ⟨hcover, hatts, _⟩ := startEach_spec _ σ.store hret' hreq.requestedIds
      obtain ⟨_, _, hnumbers⟩ := startEach_counted now flow.workerId (batch.map Entry.request) σ.store
        hreq.requestedJobs hreq.requestedIds
      rw [hret'] at hnumbers
      have hin : (r.1, r.2.1) ∈ batch.map Entry.request := hcover ▸ List.mem_map_of_mem hr
      obtain ⟨att, hatt, hrun, hj⟩ := hatts _ hin
      refine ⟨att, hatt, hj, ?_⟩
      rw [hnewest _ att hatt hrun, hj]
      exact ((hnumbers started rfl r hr).2).symm
  | @startRefused flow now batch message s' hreq hret =>
      have htime := horderly.inTime flow now batch rfl
      have hopen := h.openAttempts_of_start now hreq htime
      have hnewest := h.newest_of_start now hreq htime
      have hwithin := h.within_of_start now hreq htime
      rw [hret] at hopen hnewest hwithin
      exact ⟨hkept, hopen, hnewest, hwithin, h.fits_of_start hreq htime hret (by simp)⟩
  | @finish env place attemptId attemptNo flow job outcome s' hheld hnew hret hp =>
      have hend := finishJob_ending flow env σ.store job attemptId attemptNo (by rw [hret]; exact hp)
      rw [hret] at hend
      obtain ⟨op, hop, hstart⟩ := hend.serves hnew hp
      obtain ⟨⟨stored, hstored, hmax⟩, _, _, hnumbered⟩ := h.fits place _ hheld
      refine h.of_serves hop hstart (h.within_of_ending hend hnew hp ?_) fun n hold' hhold' => ?_
      · -- a retry: the attempt that failed is open, so it was the last one started, and it is below the budget
        intro hlt job' hjob' att hatt hopen hj
        rw [hstored] at hjob'
        cases hjob'
        obtain ⟨known, hknown, _, hno⟩ := hnumbered attemptId attemptNo rfl
        rw [hatt] at hknown
        cases hknown
        rw [← hj, ← h.newest attemptId att hatt hopen, hno, hmax]
        exact hlt
      · obtain ⟨hold, hhold, hjob, hprogress⟩ := dropHolding_some hhold'
        exact h.fits_of_serves hop hstart hhold hjob hprogress latest_of_drop
  | @crash place =>
      refine ⟨hkept, h.openAttempts, h.newest, h.within, fun n hold' hhold' => ?_⟩
      obtain ⟨hold, hhold, hjob, hprogress⟩ := dropHolding_some hhold'
      exact (h.fits n hold hhold).frame hjob hprogress (fun job hj => ⟨job, hj, rfl⟩) latest_of_drop
        (fun a att hatt => ⟨att, hatt, rfl, rfl⟩) fun _ _ => ⟨rfl, fun _ _ hatt _ _ => hatt⟩
  | @heartbeat flow now jobId outcome s' hret hp =>
      have hop := serves_heartbeat hret hp
      have honly := extendLease_onlyJobs σ.store now jobId flow.workerId flow.leaseSeconds
      rw [hret] at honly
      refine h.of_call hop (by simp) (h.within_of_attempts hop (h.kept.count_eq hop (by simp)) honly.attempts ?_)
      intro j j' hmove
      cases hmove with
      | keep => exact Or.inl rfl
      | extend _ _ => exact Or.inl rfl
  | @reap now order horder =>
      have hop : Serves (.reap now order) σ.store (reapExpiredLocks σ.store now order).2 := serves_reap horder
      exact h.of_call hop (by simp) (h.within_of_reap horder (horderly.spares now order rfl))

/-! ## Whole runs -/

theorem reachable_crew_ok (h : (workSystem.restrict Orderly).Reachable σ) : σ.Ok := by
  refine h.invariant (I := Crew.Ok) ?_ ?_
  · rintro _ rfl
    refine ⟨.init, .init, fun a att hatt => ?_, fun id job hjob => ?_, fun n hold hhold => ?_⟩
    · cases hatt
    · cases hjob
    · simp at hhold
  · rintro σ action σ' _ hok ⟨hstep, horderly⟩
    exact hok.step hstep horderly

/-- A job that has used up its attempts in vain is in the DLQ. -/
theorem Crew.Ok.dlq_of_exhausted (h : σ.Ok) {id : Uuid} {job : Job} (hjob : σ.store.jobs id = some job)
    (hmax : 1 ≤ job.maxAttempts) (hspent : Exhausted σ.store job) : job.status = "dlq" := by
  obtain ⟨hall, hfailed⟩ := hspent
  obtain rfl : job.id = id := h.kept.wellFormed.jobId id job hjob
  rw [h.kept.numbered.encard_attemptsOf, Nat.cast_inj] at hall
  have hcounter := h.kept.numbered.counter job.id
  cases h.within job.id job hjob hmax with
  | waiting _ hlt => omega
  | working _ hlt => omega
  | lastTry _ _ hatt hj hrun =>
      rw [hfailed _ _ hatt hj] at hrun
      simp at hrun
  | done _ _ hatt hj hdone =>
      rw [hfailed _ _ hatt hj] at hdone
      simp at hdone
  | dead hst _ => exact hst

/-- A job in the DLQ keeps its record through any run. -/
theorem dlq_record_stays {actions : List Action} (hσ : (workSystem.restrict Orderly).Reachable σ)
    (hrun : (workSystem.restrict Orderly).Run σ actions σ') {id : Uuid} {job : Job}
    (hjob : σ.store.jobs id = some job) (hst : job.status = "dlq") : σ'.store.jobs id = some job := by
  refine hrun.keeps (I := fun τ => τ.store.jobs id = some job) ?_ hσ hjob
  rintro τ action τ' hτ hkept ⟨hstep, _⟩
  rcases hstep.serves with hsame | ⟨op, hop⟩
  · rw [hsame]
    exact hkept
  · obtain ⟨job', hjob', hmove⟩ := (reachable_crew_ok hτ).kept.job hop hkept
    rw [hjob', hmove.eq_of_terminal (Or.inr (Or.inl hst))]

/-- **When the retry budget holds.** In every run of workers, crashes and the reaper in which the reaper takes back no
    lease of a job that has started `max_attempts` attempts, and no attempt is started under a lease that is not the last
    one of its job: no job with a budget of at least one attempt starts more attempts than `max_attempts`, and once all of
    them have failed, it is in the DLQ and is never leased again. -/
theorem retry_budget (hσ : (workSystem.restrict Orderly).Reachable σ) :
    RetryBudget (workSystem.restrict Orderly) σ := by
  have hok := reachable_crew_ok hσ
  constructor
  · intro id job hjob hmax
    rw [hok.kept.numbered.encard_attemptsOf, Nat.cast_le]
    exact Int.toNat_le_toNat (hok.within id job hjob hmax).count_le
  · intro id job hjob hmax hspent actions σ' hrun
    have hst := hok.dlq_of_exhausted hjob hmax hspent
    have hjob' := dlq_record_stays hσ hrun hjob hst
    refine ⟨⟨job, hjob', hst⟩, fun now queue workerId leaseSeconds batchSize ordering leased s' hret job' hmem => ?_⟩
    rintro rfl
    obtain ⟨_, before, hbefore, hq, _⟩ := leased_before (reachable_crew_ok (hσ.run hrun)).kept.wellFormed hret hmem
    rw [hjob'] at hbefore
    cases hbefore
    rw [hst] at hq
    simp at hq

/-! ### A job whose worker crashes -/

/-- A job that may be tried `n` times. -/
def emailTried (n : Int) : NewJob := { welcomeEmail with maxAttempts := n }

def triedFlow : Flow :=
  { queue := "emails", workerId := "w1", leaseSeconds := 30, ordering := .fifo, handlers := fun _ => true }

/-- The job as a worker gets it at the time `now`. -/
def leasedEmail (now : DateTime) (before : Job) : Job := leasedJob now (now + 30 * Chrono.nanosPerSecond) "w1" before

/-- The crew after a lease that hands out this job. -/
def Crew.leased (σ : Crew) (now : DateTime) (job : Job) : Crew :=
  { store := (leaseJobsBatchWithOrdering σ.store now triedFlow.queue triedFlow.workerId triedFlow.leaseSeconds 32
      triedFlow.ordering).2
    holds := takeJobs triedFlow [job] σ.holds }

/-- The crew after an attempt was started. -/
def Crew.started (σ : Crew) (now : DateTime) (e : Entry) (attemptNo : Int) : Crew :=
  { store := (startAttemptsBatch σ.store now ([e].map Entry.request) triedFlow.workerId).2
    holds := giveAttempts [e] [(e.jobId, e.attemptId, attemptNo)] σ.holds }

def Crew.crashed (σ : Crew) (place : Nat) : Crew := { σ with holds := dropHolding place σ.holds }

def Crew.reaped (σ : Crew) (now : DateTime) : Crew := { σ with store := (reapExpiredLocks σ.store now [7]).2 }

/-- The job is enqueued and leased, its first attempt is started, the worker crashes, and the reaper takes the lease
    back. -/
def emailQueued (n : Int) : Crew := { store := (enqueue .init 0 7 [] (emailTried n)).2, holds := [] }
def emailLeased (n : Int) : Crew := (emailQueued n).leased 5 (leasedEmail 5 (newEntity 0 7 (emailTried n)))
def emailStarted (n : Int) : Crew := (emailLeased n).started 6 ⟨0, 7, 9⟩ 1
def emailReaped (n : Int) : Crew := ((emailStarted n).crashed 0).reaped 35000000000

/-- Then it is leased and started again. -/
def emailAgain (n : Int) : Job :=
  leasedEmail 36000000000 (requeuedJob 35000000000 (leasedEmail 5 (newEntity 0 7 (emailTried n))))
def emailLeasedAgain (n : Int) : Crew := (emailReaped n).leased 36000000000 (emailAgain n)
def emailStartedAgain (n : Int) : Crew := (emailLeasedAgain n).started 37000000000 ⟨1, 7, 10⟩ 2

theorem emailStarted_jobs (n : Int) : Enumerates (emailStarted n).store.jobs [7] := by
  refine enumerates_singleton rfl fun id hne => ?_
  have hjobs : (emailStarted n).store.jobs id = update (update (fun _ => none) 7 (some (newEntity 0 7 (emailTried n))))
      7 (some (leasedEmail 5 (newEntity 0 7 (emailTried n)))) id := rfl
  rw [hjobs, Function.update_of_ne hne, Function.update_of_ne hne]

theorem emailLeasedAgain_holds (n : Int) : (emailLeasedAgain n).holds =
    [⟨triedFlow, leasedEmail 5 (newEntity 0 7 (emailTried n)), .over⟩, ⟨triedFlow, emailAgain n, .leased⟩] := by
  simp [emailLeasedAgain, emailReaped, emailStarted, emailLeased, emailQueued, Crew.leased, Crew.started, Crew.crashed,
    Crew.reaped, takeJobs, giveAttempts, dropHolding, List.modify]

/-- The steps of the run. -/
theorem email_steps {n : Int}
    (hagain : (leaseJobsBatchWithOrdering (emailReaped n).store 36000000000 triedFlow.queue triedFlow.workerId
      triedFlow.leaseSeconds 32 triedFlow.ordering).1 = .ok [emailAgain n])
    (hunused : (emailLeasedAgain n).store.attempts 10 = none)
    (hrestart : (startAttemptsBatch (emailLeasedAgain n).store 37000000000 ([⟨1, 7, 10⟩].map Entry.request)
      triedFlow.workerId).1 = .ok [(7, 10, 2)]) :
    WorkStep { store := .init, holds := [] } (.enqueue 0 7 [] (emailTried n)) (emailQueued n) ∧
      WorkStep (emailQueued n) (.lease triedFlow 5 32) (emailLeased n) ∧
      WorkStep (emailLeased n) (.start triedFlow 6 [⟨0, 7, 9⟩]) (emailStarted n) ∧
      WorkStep (emailStarted n) (.crash 0) ((emailStarted n).crashed 0) ∧
      WorkStep ((emailStarted n).crashed 0) (.reap 35000000000 [7]) (emailReaped n) ∧
      WorkStep (emailReaped n) (.lease triedFlow 36000000000 32) (emailLeasedAgain n) ∧
      WorkStep (emailLeasedAgain n) (.start triedFlow 37000000000 [⟨1, 7, 10⟩]) (emailStartedAgain n) := by
  have hfirst : Startable (emailLeased n) triedFlow [⟨0, 7, 9⟩] := by
    refine ⟨fun e he => ?_, by simp, by simp, fun e he => ?_⟩ <;> obtain rfl := List.mem_singleton.mp he
    · exact ⟨_, rfl, rfl⟩
    · rfl
  have hsecond : Startable (emailLeasedAgain n) triedFlow [⟨1, 7, 10⟩] := by
    refine ⟨fun e he => ?_, by simp, by simp, fun e he => ?_⟩ <;> obtain rfl := List.mem_singleton.mp he
    · rw [emailLeasedAgain_holds]
      exact ⟨emailAgain n, rfl, rfl⟩
    · simpa only using hunused
  have h₁ : WorkStep { store := .init, holds := [] } (.enqueue 0 7 [] (emailTried n)) (emailQueued n) :=
    .enqueue ⟨rfl, rfl⟩ enumerates_nil
  have h₂ : WorkStep (emailQueued n) (.lease triedFlow 5 32) (emailLeased n) := .lease (Prod.ext rfl rfl)
  have h₃ : WorkStep (emailLeased n) (.start triedFlow 6 [⟨0, 7, 9⟩]) (emailStarted n) :=
    .start hfirst (Prod.ext rfl rfl)
  have h₆ : WorkStep (emailReaped n) (.lease triedFlow 36000000000 32) (emailLeasedAgain n) := by
    unfold emailLeasedAgain Crew.leased
    exact .lease (Prod.fst_eq_iff.mp hagain)
  have h₇ : WorkStep (emailLeasedAgain n) (.start triedFlow 37000000000 [⟨1, 7, 10⟩]) (emailStartedAgain n) := by
    unfold emailStartedAgain Crew.started
    exact .start hsecond (Prod.fst_eq_iff.mp hrestart)
  exact ⟨h₁, h₂, h₃, .crash, .reap (emailStarted_jobs n), h₆, h₇⟩

/-- The second attempt fails. -/
def failing : JobEnv :=
  { attemptId := 10, meanwhile := fun s => s, timedOut := false, taskEnd := .err "boom", latencyMs := 3,
    now := 38000000000, clock := 38000000000, delaySecs := 1, newId := 8 }

def emailFailed : Crew :=
  { store := (finishJob triedFlow failing (emailStartedAgain 2).store (emailAgain 2) 10 2).2
    holds := dropHolding 1 (emailStartedAgain 2).holds }

/-- An action that neither starts attempts nor takes leases back. -/
theorem orderly_of_quiet {σ σ' : Crew} {action : Action} (hreap : ∀ now order, action ≠ .reap now order)
    (hstart : ∀ flow now batch, action ≠ .start flow now batch) : Orderly σ action σ' where
  spares now order heq := absurd heq (hreap now order)
  inTime flow now batch heq := absurd heq (hstart flow now batch)

/-- A crash on the first attempt and a failure on the second: the job, which may be tried twice, is in the DLQ, and the
    budget holds from there on. -/
theorem retry_budget_failed :
    (emailFailed.store.attempts 9).map (·.errorCode) = some (some "LEASE_EXPIRED") ∧
      (emailFailed.store.attempts 10).map (·.errorCode) = some (some "HANDLER_ERROR") ∧
      (emailFailed.store.jobs 7).map (·.status) = some "dlq" ∧
      RetryBudget (workSystem.restrict Orderly) emailFailed := by
  obtain ⟨h₁, h₂, h₃, h₄, h₅, h₆, h₇⟩ := @email_steps 2 (by decide) (by decide) (by decide)
  have h₈ : WorkStep (emailStartedAgain 2) (.finish failing 1) emailFailed :=
    .finish rfl ⟨rfl, rfl⟩ (Prod.ext rfl rfl) (by decide)
  -- both starts are under the last lease there is
  have ho₃ : Orderly (emailLeased 2) (.start triedFlow 6 [⟨0, 7, 9⟩]) (emailStarted 2) := by
    refine ⟨by simp [SparesSpentJobs], ?_⟩
    rintro _ _ _ ⟨⟩ e he _ n hold hhold _
    obtain rfl := List.mem_singleton.mp he
    have hn : n < 1 := (List.getElem?_eq_some_iff.mp hhold).1
    exact Nat.le_of_lt_succ hn
  have ho₇ : Orderly (emailLeasedAgain 2) (.start triedFlow 37000000000 [⟨1, 7, 10⟩]) (emailStartedAgain 2) := by
    refine ⟨by simp [SparesSpentJobs], ?_⟩
    rintro _ _ _ ⟨⟩ e he _ n hold hhold _
    obtain rfl := List.mem_singleton.mp he
    have hn : n < 2 := (List.getElem?_eq_some_iff.mp hhold).1
    exact Nat.le_of_lt_succ hn
  -- the reaper finds one attempt of two used
  have ho₅ : Orderly ((emailStarted 2).crashed 0) (.reap 35000000000 [7]) (emailReaped 2) := by
    refine ⟨?_, by simp [StartsInTime]⟩
    rintro _ _ ⟨⟩ id job hjob _ _
    have hid : id = 7 := by
      have hmem := ((emailStarted_jobs 2).complete id).mpr (by
        rw [show (emailStarted 2).store.jobs id = some job from hjob]
        rfl)
      simpa using hmem
    subst hid
    cases hjob
    decide
  refine ⟨by decide, by decide, by decide, retry_budget ?_⟩
  exact .next (.next (.next (.next (.next (.next (.next (.next (.start rfl) ⟨h₁, orderly_of_quiet (by simp) (by simp)⟩)
    ⟨h₂, orderly_of_quiet (by simp) (by simp)⟩) ⟨h₃, ho₃⟩) ⟨h₄, orderly_of_quiet (by simp) (by simp)⟩) ⟨h₅, ho₅⟩)
    ⟨h₆, orderly_of_quiet (by simp) (by simp)⟩) ⟨h₇, ho₇⟩) ⟨h₈, orderly_of_quiet (by simp) (by simp)⟩

/-- A job that may be tried once is tried twice: its worker crashed, and the reaper put it back. -/
theorem crash_exceeds_budget : workSystem.Reachable (emailStartedAgain 1) ∧
    ((emailStartedAgain 1).store.jobs 7).map (·.maxAttempts) = some 1 ∧
    ((emailStartedAgain 1).store.attempts 9).map (fun att => (att.jobId, att.errorCode)) =
      some (7, some "LEASE_EXPIRED") ∧
    ((emailStartedAgain 1).store.attempts 10).map (fun att => (att.jobId, att.attemptNo)) = some (7, 2) ∧
    ¬RetryBudget workSystem (emailStartedAgain 1) := by
  obtain ⟨h₁, h₂, h₃, h₄, h₅, h₆, h₇⟩ := @email_steps 1 (by decide) (by decide) (by decide)
  refine ⟨.next (.next (.next (.next (.next (.next (.next (.start rfl) h₁) h₂) h₃) h₄) h₅) h₆) h₇, by decide, by decide,
    by decide, fun hbudget => ?_⟩
  have hjob : (emailStartedAgain 1).store.jobs 7 = some (emailAgain 1) := by decide
  have hone := hbudget.bounded 7 _ hjob (by decide)
  have h9 : 9 ∈ attemptsOf (emailStartedAgain 1).store 7 :=
    ⟨leaseExpiredAttempt 35000000000 (startedAttempt 6 9 7 1 "w1"), by decide, rfl⟩
  have h10 : 10 ∈ attemptsOf (emailStartedAgain 1).store 7 :=
    ⟨startedAttempt 37000000000 10 7 2 "w1", by decide, rfl⟩
  exact absurd (Set.encard_le_one_iff.mp hone 9 10 h9 h10) (by decide)

end Azums.Quickstart
