import Azums.Postgres.LeaseLaws
import Azums.Quickstart.Records
import Azums.Worker.Records

/-!
# `Worker.Round` — one round of the standalone worker

The worker process leases a batch from PostgreSQL, starts the attempts, runs every job as a task of its own and joins the
tasks as they end; then it acknowledges the successes in one batch and reports the failures one by one. It has no
heartbeat, so its leases may be lost while the handlers run: `meanwhile` is what everyone else does to the database
until then, and `between` what they do from one statement of the reports to the next.

`worker_round_ok_iff` says for every database and every mix of outcomes when a round returns `Ok`, provided that nobody
else touches the rows of the batch once the reports have begun: every job that succeeded is still leased, and every
failure finds the row that its report needs. Then the round has settled each job and each attempt of its batch as its
task ended, and it has touched nothing else, whatever order the tasks joined in.
-/

namespace Azums.Worker

open Azums.Jobs Azums.Postgres
open Quickstart (attemptsMap)
open Function (update)

/-! ## The tasks -/

/-- How the task of a job ends: with what its handler returned, or with a join error. -/
inductive TaskEnd where
  | ok
  | err (code message : String)
  | panic (message : String)
  | aborted (joinErr : String)
deriving DecidableEq

/-- The fields of the worker that a round reads; of the registry, which job types have a handler. -/
structure Config where
  queue : String
  workerId : String
  leaseSeconds : Int
  dequeueBatchSize : Int
  handlers : String → Bool

/-- What the surroundings decide while a task runs. -/
structure TaskEnv where
  taskEnd : TaskEnd
  latencyMs : Int

/-- `JobExecutionOutcome`. -/
inductive JobExecutionOutcome where
  | succeeded (jobId attemptId : Uuid) (attemptNo latencyMs : Int)
  | failed (jobId attemptId : Uuid) (attemptNo maxAttempts latencyMs : Int) (errorCode errorMessage : String)
deriving DecidableEq

namespace JobExecutionOutcome

def jobId : JobExecutionOutcome → Uuid
  | succeeded jobId _ _ _ => jobId
  | failed jobId _ _ _ _ _ _ => jobId

def attemptId : JobExecutionOutcome → Uuid
  | succeeded _ attemptId _ _ => attemptId
  | failed _ attemptId _ _ _ _ _ => attemptId

/-- What the success batch takes of an outcome. -/
def completion : JobExecutionOutcome → Option Completion
  | succeeded jobId attemptId _ latencyMs => some (jobId, attemptId, latencyMs)
  | failed .. => none

/-- What `on_failure` is called with; a number that was read from an `integer` column is an `i32` unchanged. -/
def failure (workerId : String) : JobExecutionOutcome → Option Failure
  | succeeded .. => none
  | failed jobId attemptId attemptNo maxAttempts latencyMs errorCode errorMessage =>
      some
        { jobId, attemptId, workerId, latencyMs, errorCode, errorMessage, attemptNo := .ofInt attemptNo, maxAttempts }

end JobExecutionOutcome

/-- The task of a job. A panic gets no attempts, which sends the job straight to the DLQ. -/
def execute (w : Config) (env : TaskEnv) (job : JobRow) (attemptId : Uuid) (attemptNo : Int) : JobExecutionOutcome :=
  if w.handlers job.jobType then
    match env.taskEnd with
    | .ok => .succeeded job.id attemptId attemptNo env.latencyMs
    | .err code message => .failed job.id attemptId attemptNo job.maxAttempts env.latencyMs code message
    | .panic message => .failed job.id attemptId attemptNo 0 env.latencyMs "PANIC" message
    | .aborted joinErr => .failed job.id attemptId attemptNo 0 env.latencyMs "PANIC" s!"task join error: {joinErr}"
  else
    .failed job.id attemptId attemptNo job.maxAttempts env.latencyMs "UNKNOWN_JOB_TYPE"
      s!"no handler for job_type={job.jobType}"

/-- The loop that spawns the tasks, with the outcomes they will end in. -/
def spawnTasks (w : Config) (task : Uuid → TaskEnv) :
    List JobRow → (Uuid → Option (Uuid × Int)) → Except String (List JobExecutionOutcome)
  | [], _ => .ok []
  | job :: rest, attemptsByJob =>
      match attemptsByJob job.id with
      | none => .error s!"missing started attempt for job {showUuid job.id}"
      | some (attemptId, attemptNo) =>
          (spawnTasks w task rest (update attemptsByJob job.id none)).map
            (execute w (task job.id) job attemptId attemptNo :: ·)

/-! ## The round -/

/-- A moment between two statements of the reports: between those of the success batch, before the report of a failure,
    and between the two statements of that. -/
inductive Moment where
  | batchAttempts
  | report (jobId : Uuid)
  | attempt (jobId : Uuid)
deriving DecidableEq

/-- What the surroundings decide during a round. `join` is the order in which the tasks end, `scan` the one in which the
    engine scans an unnested array; the runner has the default configuration. -/
structure RoundEnv where
  startNow : DateTime
  newId : Nat → Uuid
  task : Uuid → TaskEnv
  join : List JobExecutionOutcome → List JobExecutionOutcome
  joins : ∀ outcomes, (join outcomes).Perm outcomes
  meanwhile : Db → Db
  between : Moment → Db → Db
  finishNow : DateTime
  now : DateTime
  scan : List (Uuid × Int) → List (Uuid × Int)
  scans : ∀ data, (scan data).Perm data
  failure : Uuid → FailureEnv
  retryCfg : ∀ jobId, (failure jobId).retryCfg = RetryConfig.default

/-- `on_failure` for each failure, up to the first error. -/
def reportFailures (env : RoundEnv) : List Failure → Db → Outcome Unit × Db
  | [], db => (.ok (), db)
  | f :: rest, db =>
      match onFailureAmid (env.between (.attempt f.jobId)) (env.between (.report f.jobId) db) (env.failure f.jobId) f with
      | (.ok (), db) => reportFailures env rest db
      | (.err e, db) => (.err e, db)
      | (.panic, db) => (.panic, db)

/-- The end of a round: the successes in one batch, then the failures. -/
def recordOutcomes (w : Config) (env : RoundEnv) (datasetId : String) (joined : List JobExecutionOutcome) (db : Db) :
    Outcome Unit × Db :=
  let succeededBatch := joined.filterMap (·.completion)
  let failedBatch := joined.filterMap (·.failure w.workerId)
  match onSuccessBatchAmid (env.between .batchAttempts) db env.finishNow env.now datasetId succeededBatch
      ⟨env.scan _, env.scans _⟩ w.workerId with
  | (.ok (), db) => reportFailures env failedBatch db
  | (.err e, db) => (.err e, db)
  | (.panic, db) => (.panic, db)

/-- The attempts of a batch are started. -/
def startBatch (w : Config) (env : RoundEnv) (batch : List JobRow) (db : Db) :
    Outcome (List (Uuid × Uuid × Int)) × Db :=
  startAttemptsBatch db env.startNow env.newId (batch.map (·.datasetId)) (batch.map (·.id)) w.workerId

/-- A round of the worker's loop, from the batch that it leased; an empty batch makes it wait. -/
def workerRound (w : Config) (env : RoundEnv) (batch : List JobRow) (db : Db) : Outcome Unit × Db :=
  match batch with
  | [] => (.ok (), db)
  | first :: _ =>
      if batch.any (fun j => j.datasetId != first.datasetId) then
        (.err "mixed dataset batch returned from lease query", db)
      else
        match startBatch w env batch db with
        | (.err e, db) => (.err e, db)
        | (.panic, db) => (.panic, db)
        | (.ok started, db) =>
            if started.length ≠ batch.length then
              (.err s!"attempt insert count mismatch: inserted={started.length} leased={batch.length}", db)
            else
              match spawnTasks w env.task batch (attemptsMap started) with
              | .error e => (.err e, db)
              | .ok outcomes => recordOutcomes w env first.datasetId (env.join outcomes) (env.meanwhile db)

/-! ## The reports, one after the other -/

section Failures

variable {env : RoundEnv} {jobIds attemptIds : List Uuid}

def settledFailure (env : RoundEnv) (f : Failure) : Uuid × (JobRow → JobRow) := reportedJob (env.failure f.jobId) f

def settledFailedAttempt (env : RoundEnv) (f : Failure) : Uuid × (AttemptRow → AttemptRow) :=
  reportedAttempt (env.failure f.jobId) f

theorem map_settledFailure (fs : List Failure) : (fs.map (settledFailure env)).map (·.1) = fs.map (·.jobId) := by
  rw [List.map_map]
  rfl

theorem map_settledFailedAttempt (fs : List Failure) :
    (fs.map (settledFailedAttempt env)).map (·.1) = fs.map (·.attemptId) := by
  rw [List.map_map]
  rfl

/-- **All the reports.** They are about different jobs, so each finds what it would have found at the start. -/
theorem reportFailures_spec (hleaves : ∀ m, Leaves jobIds attemptIds (env.between m)) (fs : List Failure) :
    ∀ db : Db, (∀ f ∈ fs, f.jobId ∈ jobIds) → (fs.map (·.jobId)).Nodup → (fs.map (·.attemptId)).Nodup →
      ((reportFailures env fs db).1 = .ok () ↔ ∀ f ∈ fs, Reports (env.failure f.jobId) db.jobs f) ∧
        ((∀ f ∈ fs, Reports (env.failure f.jobId) db.jobs f) →
          Patched jobIds attemptIds (fs.map (settledFailure env)) (fs.map (settledFailedAttempt env)) db
            (reportFailures env fs db).2) := by
  induction fs with
  | nil => intro db _ _ _; exact ⟨by simp [reportFailures], fun _ => .refl db⟩
  | cons f rest ih =>
      intro db hin hjobs hattempts
      rw [List.forall_mem_cons] at hin
      rw [List.map_cons, List.nodup_cons] at hjobs hattempts
      have hbefore : Patched jobIds attemptIds [] [] db (env.between (.report f.jobId) db) :=
        .of_leaves (hleaves _) db
      obtain ⟨hokIff, hdone⟩ := onFailureAmid_spec (hleaves (.attempt f.jobId)) (env.between (.report f.jobId) db)
        (env.failure f.jobId) hin.1
      rw [hbefore.reports hin.1 List.not_mem_nil] at hokIff hdone
      cases hf : onFailureAmid (env.between (.attempt f.jobId)) (env.between (.report f.jobId) db)
          (env.failure f.jobId) f with
      | mk outcome db₁ =>
          rw [hf] at hokIff hdone
          cases outcome with
          | err e =>
              have hnot : ¬Reports (env.failure f.jobId) db.jobs f := fun h => by cases hokIff.mpr h
              refine ⟨⟨fun h => ?_, fun h => absurd (h f List.mem_cons_self) hnot⟩,
                fun h => absurd (h f List.mem_cons_self) hnot⟩
              simp [reportFailures, hf] at h
          | panic =>
              have hnot : ¬Reports (env.failure f.jobId) db.jobs f := fun h => by cases hokIff.mpr h
              refine ⟨⟨fun h => ?_, fun h => absurd (h f List.mem_cons_self) hnot⟩,
                fun h => absurd (h f List.mem_cons_self) hnot⟩
              simp [reportFailures, hf] at h
          | ok _ =>
              have hfirst : Reports (env.failure f.jobId) db.jobs f := hokIff.mp rfl
              have hone := hbefore.trans (hdone hfirst) (by simp) (by simp) (by simp) (by simp)
              have hids : ∀ p ∈ [settledFailure env f], ∀ r : JobRow, (p.2 r).id = r.id := by
                intro p hp r
                obtain rfl := List.mem_singleton.mp hp
                exact reportedRow_id (env.failure f.jobId) f r
              have hsame : ∀ g ∈ rest,
                  Reports (env.failure g.jobId) db₁.jobs g ↔ Reports (env.failure g.jobId) db.jobs g := by
                intro g hg
                refine hone.reports (hin.2 g hg) ?_
                simp only [reportedJob, List.nil_append, List.map_cons, List.map_nil, List.mem_singleton]
                rintro heq
                exact hjobs.1 (heq ▸ List.mem_map_of_mem hg)
              obtain ⟨hrestIff, hrest⟩ := ih db₁ hin.2 hjobs.2 hattempts.2
              have hrun : reportFailures env (f :: rest) db = reportFailures env rest db₁ := by
                simp [reportFailures, hf]
              rw [hrun, hrestIff]
              constructor
              · simp only [List.forall_mem_cons, hfirst, true_and]
                exact forall₂_congr hsame
              · intro hall
                have hlater := hrest fun g hg => (hsame g hg).mpr (hall g (List.mem_cons_of_mem _ hg))
                refine hone.trans hlater hids (fun p hp r => ?_) ?_ ?_
                · obtain rfl := List.mem_singleton.mp hp
                  rfl
                · rw [List.map_append, map_settledFailure]
                  exact List.nodup_cons.mpr hjobs
                · rw [List.map_append, map_settledFailedAttempt]
                  exact List.nodup_cons.mpr hattempts

end Failures

/-! ## The end of a round -/

section Outcomes

variable {w : Config} {env : RoundEnv} {datasetId : String} {db : Db}

/-- What becomes of the row of a job whose task ended so. -/
def settledJob (w : Config) (env : RoundEnv) : JobExecutionOutcome → Uuid × (JobRow → JobRow)
  | .succeeded jobId attemptId _ latencyMs => completedJob env.now (jobId, attemptId, latencyMs)
  | .failed jobId attemptId attemptNo maxAttempts latencyMs errorCode errorMessage =>
      reportedJob (env.failure jobId)
        { jobId, attemptId, workerId := w.workerId, latencyMs, errorCode, errorMessage, attemptNo := .ofInt attemptNo,
          maxAttempts }

/-- What becomes of its attempt. -/
def settledAttempt (w : Config) (env : RoundEnv) : JobExecutionOutcome → Uuid × (AttemptRow → AttemptRow)
  | .succeeded jobId attemptId _ latencyMs => completedAttempt env.finishNow (jobId, attemptId, latencyMs)
  | .failed jobId attemptId attemptNo maxAttempts latencyMs errorCode errorMessage =>
      reportedAttempt (env.failure jobId)
        { jobId, attemptId, workerId := w.workerId, latencyMs, errorCode, errorMessage, attemptNo := .ofInt attemptNo,
          maxAttempts }

/-- The database lets an outcome be recorded: a success needs the lease, a failure what its report needs. -/
structure Accepts (w : Config) (env : RoundEnv) (datasetId : String) (t : JobsTable) (o : JobExecutionOutcome) :
    Prop where
  success : ∀ u, o.completion = some u → LeasedIn t datasetId u.1 w.workerId
  failure : ∀ f, o.failure w.workerId = some f → Reports (env.failure f.jobId) t f

theorem settledJob_fst (o : JobExecutionOutcome) : (settledJob w env o).1 = o.jobId := by
  cases o <;> rfl

theorem settledAttempt_fst (o : JobExecutionOutcome) : (settledAttempt w env o).1 = o.attemptId := by
  cases o <;> rfl

/-- Sorting a list of things into two kinds. -/
theorem map_perm_split {α β γ δ : Type} {left : α → Option β} {right : α → Option γ} {f : α → δ} {g : β → δ}
    {h : γ → δ} (hsplit : ∀ a, (∃ b, left a = some b ∧ right a = none ∧ f a = g b) ∨
      ∃ c, left a = none ∧ right a = some c ∧ f a = h c) (as : List α) :
    (as.map f).Perm ((as.filterMap left).map g ++ (as.filterMap right).map h) := by
  induction as with
  | nil => exact .nil
  | cons a rest ih =>
      rcases hsplit a with ⟨b, hl, hr, hf⟩ | ⟨c, hl, hr, hf⟩
      · rw [List.map_cons, List.filterMap_cons_some hl, List.filterMap_cons_none hr, hf]
        exact ih.cons _
      · rw [List.map_cons, List.filterMap_cons_none hl, List.filterMap_cons_some hr, hf]
        exact (ih.cons _).trans List.perm_middle.symm

theorem settledJob_perm (os : List JobExecutionOutcome) :
    (os.map (settledJob w env)).Perm ((os.filterMap (·.completion)).map (completedJob env.now) ++
      (os.filterMap (·.failure w.workerId)).map (settledFailure env)) := by
  refine map_perm_split (fun o => ?_) os
  cases o with
  | succeeded => exact Or.inl ⟨_, rfl, rfl, rfl⟩
  | failed => exact Or.inr ⟨_, rfl, rfl, rfl⟩

theorem settledAttempt_perm (os : List JobExecutionOutcome) :
    (os.map (settledAttempt w env)).Perm ((os.filterMap (·.completion)).map (completedAttempt env.finishNow) ++
      (os.filterMap (·.failure w.workerId)).map (settledFailedAttempt env)) := by
  refine map_perm_split (fun o => ?_) os
  cases o with
  | succeeded => exact Or.inl ⟨_, rfl, rfl, rfl⟩
  | failed => exact Or.inr ⟨_, rfl, rfl, rfl⟩

theorem map_settledJob (os : List JobExecutionOutcome) :
    (os.map (settledJob w env)).map (·.1) = os.map (·.jobId) := by
  rw [List.map_map]
  exact List.map_congr_left fun o _ => settledJob_fst o

theorem map_settledAttempt (os : List JobExecutionOutcome) :
    (os.map (settledAttempt w env)).map (·.1) = os.map (·.attemptId) := by
  rw [List.map_map]
  exact List.map_congr_left fun o _ => settledAttempt_fst o

variable {jobIds attemptIds : List Uuid} {os : List JobExecutionOutcome}

/-- The jobs and attempts that the reports of outcomes name are those of the outcomes. -/
theorem completion_ids (hin : ∀ o ∈ os, o.jobId ∈ jobIds ∧ o.attemptId ∈ attemptIds) {u : Completion}
    (h : u ∈ os.filterMap (·.completion)) : u.1 ∈ jobIds ∧ u.2.1 ∈ attemptIds := by
  obtain ⟨o, ho, hu⟩ := List.mem_filterMap.mp h
  cases o with
  | succeeded =>
      cases hu
      exact hin _ ho
  | failed => cases hu

theorem failure_ids (hin : ∀ o ∈ os, o.jobId ∈ jobIds ∧ o.attemptId ∈ attemptIds) {f : Failure}
    (h : f ∈ os.filterMap (·.failure w.workerId)) : f.jobId ∈ jobIds ∧ f.attemptId ∈ attemptIds := by
  obtain ⟨o, ho, hf⟩ := List.mem_filterMap.mp h
  cases o with
  | succeeded => cases hf
  | failed =>
      cases hf
      exact hin _ ho

/-- **The end of a round**, for outcomes of different jobs and attempts, in any order. -/
theorem recordOutcomes_spec (w : Config) (hleaves : ∀ m, Leaves jobIds attemptIds (env.between m))
    (datasetId : String) (os : List JobExecutionOutcome) (db : Db)
    (hin : ∀ o ∈ os, o.jobId ∈ jobIds ∧ o.attemptId ∈ attemptIds) (hjobs : (os.map (·.jobId)).Nodup)
    (hattempts : (os.map (·.attemptId)).Nodup) :
    ((recordOutcomes w env datasetId os db).1 = .ok () ↔ ∀ o ∈ os, Accepts w env datasetId db.jobs o) ∧
      ((∀ o ∈ os, Accepts w env datasetId db.jobs o) →
        Patched jobIds attemptIds (os.map (settledJob w env)) (os.map (settledAttempt w env)) db
          (recordOutcomes w env datasetId os db).2) := by
  have hkeysJ : ((os.map (settledJob w env)).map (·.1)).Nodup := map_settledJob os ▸ hjobs
  have hkeysA : ((os.map (settledAttempt w env)).map (·.1)).Nodup := map_settledAttempt os ▸ hattempts
  have hsplitJ := @settledJob_perm w env os
  have hsplitA := @settledAttempt_perm w env os
  have hbothJ := (hsplitJ.map (·.1)).nodup_iff.mp hkeysJ
  have hbothA := (hsplitA.map (·.1)).nodup_iff.mp hkeysA
  have hsuccJ := hbothJ
  have hsuccA := hbothA
  rw [List.map_append, List.nodup_append', map_completedJob, map_settledFailure] at hsuccJ
  rw [List.map_append, List.nodup_append', map_completedAttempt, map_settledFailedAttempt] at hsuccA
  obtain ⟨hokIff, hdone⟩ := @onSuccessBatchAmid_spec datasetId w.workerId _ _ _ (hleaves .batchAttempts) db
    env.finishNow env.now (os.filterMap (·.completion)) ⟨env.scan _, env.scans _⟩
    (fun u hu => (completion_ids hin hu).1)
    hsuccJ.1 hsuccA.1
  have haccepts : (∀ o ∈ os, Accepts w env datasetId db.jobs o) ↔
      (∀ u ∈ os.filterMap (·.completion), LeasedIn db.jobs datasetId u.1 w.workerId) ∧
        ∀ f ∈ os.filterMap (·.failure w.workerId), Reports (env.failure f.jobId) db.jobs f := by
    simp only [List.mem_filterMap]
    constructor
    · intro h
      refine ⟨?_, ?_⟩
      · rintro u ⟨o, ho, hu⟩
        exact (h o ho).success u hu
      · rintro f ⟨o, ho, hf⟩
        exact (h o ho).failure f hf
    · rintro ⟨hs, hf⟩ o ho
      exact ⟨fun u hu => hs u ⟨o, ho, hu⟩, fun f hof => hf f ⟨o, ho, hof⟩⟩
  rw [haccepts]
  cases hbatch : onSuccessBatchAmid (env.between .batchAttempts) db env.finishNow env.now datasetId
      (os.filterMap (·.completion)) ⟨env.scan _, env.scans _⟩ w.workerId with
  | mk outcome db₁ =>
      rw [hbatch] at hokIff hdone
      cases outcome with
      | err e =>
          have hnot : ¬∀ u ∈ os.filterMap (·.completion), LeasedIn db.jobs datasetId u.1 w.workerId :=
            fun h => by cases hokIff.mpr h
          refine ⟨⟨fun h => ?_, fun h => absurd h.1 hnot⟩, fun h => absurd h.1 hnot⟩
          simp [recordOutcomes, hbatch] at h
      | panic =>
          have hnot : ¬∀ u ∈ os.filterMap (·.completion), LeasedIn db.jobs datasetId u.1 w.workerId :=
            fun h => by cases hokIff.mpr h
          refine ⟨⟨fun h => ?_, fun h => absurd h.1 hnot⟩, fun h => absurd h.1 hnot⟩
          simp [recordOutcomes, hbatch] at h
      | ok _ =>
          have hheld : ∀ u ∈ os.filterMap (·.completion), LeasedIn db.jobs datasetId u.1 w.workerId := hokIff.mp rfl
          have hone := hdone hheld
          have hidsJ : ∀ p ∈ (os.filterMap (·.completion)).map (completedJob env.now), ∀ r : JobRow,
              (p.2 r).id = r.id := by
            intro p hp r
            obtain ⟨u, _, rfl⟩ := List.mem_map.mp hp
            rfl
          have hidsA : ∀ p ∈ (os.filterMap (·.completion)).map (completedAttempt env.finishNow), ∀ r : AttemptRow,
              (p.2 r).id = r.id := by
            intro p hp r
            obtain ⟨u, _, rfl⟩ := List.mem_map.mp hp
            rfl
          -- the failures are about other jobs than the successes
          have hsame : ∀ f ∈ os.filterMap (·.failure w.workerId),
              Reports (env.failure f.jobId) db₁.jobs f ↔ Reports (env.failure f.jobId) db.jobs f := by
            intro f hf
            refine hone.reports (failure_ids hin hf).1 fun hmem => ?_
            rw [map_completedJob] at hmem
            exact hsuccJ.2.2 hmem (List.mem_map_of_mem hf)
          obtain ⟨hreportsIff, hreported⟩ := reportFailures_spec hleaves (os.filterMap (·.failure w.workerId)) db₁
            (fun f hf => (failure_ids hin hf).1) hsuccJ.2.1 hsuccA.2.1
          have hrun : recordOutcomes w env datasetId os db =
              reportFailures env (os.filterMap (·.failure w.workerId)) db₁ := by
            simp [recordOutcomes, hbatch]
          rw [hrun, hreportsIff, forall₂_congr hsame]
          refine ⟨⟨fun h => ⟨hheld, h⟩, And.right⟩, fun h => ?_⟩
          have hrest := hreported fun f hf => (hsame f hf).mpr (h.2 f hf)
          exact (hone.trans hrest hidsJ hidsA hbothJ hbothA).perm hsplitJ.symm hsplitA.symm hbothJ hbothA

/-! ### The rest of the database

It changes only as the others change it: whatever relation their steps keep, the reports keep. -/

variable {R : Rest → Rest → Prop}

theorem reportFailures_rest (hrefl : ∀ x, R x x) (htrans : ∀ x y z, R x y → R y z → R x z)
    (hbetween : ∀ m db, R (restOf jobIds attemptIds db) (restOf jobIds attemptIds (env.between m db)))
    (fs : List Failure) : ∀ db : Db, (∀ f ∈ fs, f.jobId ∈ jobIds ∧ f.attemptId ∈ attemptIds) →
      R (restOf jobIds attemptIds db) (restOf jobIds attemptIds (reportFailures env fs db).2) := by
  induction fs with
  | nil => intro db _; exact hrefl _
  | cons f rest ih =>
      intro db hin
      rw [List.forall_mem_cons] at hin
      have hone : R (restOf jobIds attemptIds db) (restOf jobIds attemptIds (onFailureAmid
          (env.between (.attempt f.jobId)) (env.between (.report f.jobId) db) (env.failure f.jobId) f).2) := by
        rw [onFailureAmid, restOf_retryOrDlq _ hin.1.1]
        refine htrans _ _ _ (hbetween (.report f.jobId) db) ?_
        rw [← restOf_finishFailed (env.failure f.jobId) hin.1.2]
        exact hbetween _ _
      rw [reportFailures]
      cases hf : onFailureAmid (env.between (.attempt f.jobId)) (env.between (.report f.jobId) db)
          (env.failure f.jobId) f with
      | mk outcome db₁ =>
          rw [hf] at hone
          cases outcome with
          | ok _ => exact htrans _ _ _ hone (ih db₁ hin.2)
          | err e => exact hone
          | panic => exact hone

theorem onSuccessBatchAmid_rest (hrefl : ∀ x, R x x) {between : Db → Db}
    (hbetween : ∀ db, R (restOf jobIds attemptIds db) (restOf jobIds attemptIds (between db))) (db : Db)
    (finishNow now : DateTime) {updates : List Completion} (scan : ScanOrder (attemptUpdates updates)) (workerId : String)
    (hin : ∀ u ∈ updates, u.1 ∈ jobIds ∧ u.2.1 ∈ attemptIds) :
    R (restOf jobIds attemptIds db)
      (restOf jobIds attemptIds (onSuccessBatchAmid between db finishNow now datasetId updates scan workerId).2) := by
  unfold onSuccessBatchAmid
  by_cases hempty : updates.isEmpty = true
  · rw [if_pos hempty]
    exact hrefl _
  · rw [if_neg hempty]
    have hscan : ∀ d ∈ scan.rows, d.1 ∈ attemptIds := by
      intro d hd
      obtain ⟨u, hu, rfl⟩ := List.mem_map.mp (scan.perm.subset hd)
      exact (hin u hu).2
    have hids : ∀ id ∈ updates.map (·.1), id ∈ jobIds := by
      intro id hid
      obtain ⟨u, hu, rfl⟩ := List.mem_map.mp hid
      exact (hin u hu).1
    have hmark := @restOf_markSucceededBatch jobIds attemptIds
      (between { db with attempts := finishSucceededBatch db.attempts finishNow scan.rows }) now datasetId workerId _ hids
    have hattempts := hbetween { db with attempts := finishSucceededBatch db.attempts finishNow scan.rows }
    rw [restOf_finishSucceededBatch finishNow hscan, ← hmark] at hattempts
    simp only
    split <;> exact hattempts

/-- **The frame of a round's end.** -/
theorem recordOutcomes_rest (hrefl : ∀ x, R x x) (htrans : ∀ x y z, R x y → R y z → R x z)
    (hbetween : ∀ m db, R (restOf jobIds attemptIds db) (restOf jobIds attemptIds (env.between m db))) (w : Config)
    (datasetId : String) (os : List JobExecutionOutcome) (db : Db)
    (hin : ∀ o ∈ os, o.jobId ∈ jobIds ∧ o.attemptId ∈ attemptIds) :
    R (restOf jobIds attemptIds db) (restOf jobIds attemptIds (recordOutcomes w env datasetId os db).2) := by
  have hbatch := @onSuccessBatchAmid_rest datasetId jobIds attemptIds R hrefl _ (hbetween .batchAttempts) db
    env.finishNow env.now (os.filterMap (·.completion)) ⟨env.scan _, env.scans _⟩ w.workerId
    fun u hu => completion_ids hin hu
  unfold recordOutcomes
  simp only
  cases hb : onSuccessBatchAmid (env.between .batchAttempts) db env.finishNow env.now datasetId
      (os.filterMap (·.completion)) ⟨env.scan _, env.scans _⟩ w.workerId with
  | mk outcome db₁ =>
      rw [hb] at hbatch
      cases outcome with
      | ok _ =>
          exact htrans _ _ _ hbatch (reportFailures_rest hrefl htrans hbetween _ db₁ fun f hf => failure_ids hin hf)
      | err e => exact hbatch
      | panic => exact hbatch

end Outcomes

/-! ## The start of a round -/

section Start

variable {w : Config} {db db₁ : Db} {batch : List JobRow} {started : List (Uuid × Uuid × Int)}

/-- The outcomes that the tasks of a batch end in, each with the attempt that was started for its job. -/
def batchOutcomes (w : Config) (task : Uuid → TaskEnv) (batch : List JobRow) (started : List (Uuid × Uuid × Int)) :
    List JobExecutionOutcome :=
  List.zipWith (fun job attempt => execute w (task job.id) job attempt.2.1 attempt.2.2) batch started

theorem execute_jobId (w : Config) (env : TaskEnv) (job : JobRow) (attemptId : Uuid) (attemptNo : Int) :
    (execute w env job attemptId attemptNo).jobId = job.id := by
  unfold execute
  split
  · cases env.taskEnd <;> rfl
  · rfl

theorem execute_attemptId (w : Config) (env : TaskEnv) (job : JobRow) (attemptId : Uuid) (attemptNo : Int) :
    (execute w env job attemptId attemptNo).attemptId = attemptId := by
  unfold execute
  split
  · cases env.taskEnd <;> rfl
  · rfl

theorem batchOutcomes_ids (task : Uuid → TaskEnv) :
    ∀ (batch : List JobRow) (started : List (Uuid × Uuid × Int)), started.map (·.1) = batch.map (·.id) →
      (batchOutcomes w task batch started).map (·.jobId) = batch.map (·.id) ∧
        (batchOutcomes w task batch started).map (·.attemptId) = started.map (·.2.1) := by
  intro batch
  induction batch with
  | nil =>
      intro started h
      obtain rfl := List.map_eq_nil_iff.mp h
      exact ⟨rfl, rfl⟩
  | cons job rest ih =>
      intro started h
      cases started with
      | nil => cases h
      | cons attempt more =>
          rw [List.map_cons, List.map_cons, List.cons.injEq] at h
          obtain ⟨hjobs, hattempts⟩ := ih more h.2
          unfold batchOutcomes at hjobs hattempts ⊢
          simp only [List.zipWith_cons_cons, List.map_cons, execute_jobId, execute_attemptId, hjobs, hattempts,
            and_self]

/-- Every job finds the attempt that was started for it. -/
theorem spawnTasks_spec (task : Uuid → TaskEnv) :
    ∀ (batch : List JobRow) (started : List (Uuid × Uuid × Int)) (attemptsByJob : Uuid → Option (Uuid × Int)),
      started.map (·.1) = batch.map (·.id) → (batch.map (·.id)).Nodup →
      (∀ a ∈ started, attemptsByJob a.1 = some a.2) →
      spawnTasks w task batch attemptsByJob = .ok (batchOutcomes w task batch started) := by
  intro batch
  induction batch with
  | nil => intro started attemptsByJob _ _ _; simp [spawnTasks, batchOutcomes]
  | cons job rest ih =>
      intro started attemptsByJob h hnd hfound
      cases started with
      | nil => cases h
      | cons attempt more =>
          rw [List.map_cons, List.map_cons, List.cons.injEq] at h
          obtain ⟨hid, hrest⟩ := h
          rw [List.map_cons, List.nodup_cons] at hnd
          have hfirst := hfound attempt List.mem_cons_self
          rw [hid] at hfirst
          have hlater : ∀ a ∈ more, update attemptsByJob job.id none a.1 = some a.2 := by
            intro a ha
            have hne : a.1 ≠ job.id := by
              intro heq
              exact hnd.1 (heq ▸ hrest ▸ List.mem_map_of_mem ha)
            rw [Function.update_of_ne hne]
            exact hfound a (List.mem_cons_of_mem _ ha)
          rw [spawnTasks, hfirst]
          simp only [ih more _ hrest hnd.2 hlater]
          rfl

/-- The attempts that were started: one for each job, in order, under new ids. -/
theorem startBatch_ok {env : RoundEnv} (hne : batch ≠ []) (h : startBatch w env batch db = (.ok started, db₁)) :
    started.map (·.1) = batch.map (·.id) ∧ (started.map (·.2.1)).Nodup := by
  have hds : (batch.map (·.datasetId)).isEmpty = false := by simpa using hne
  have hids : (batch.map (·.id)).isEmpty = false := by simpa using hne
  have hlen : (batch.map (·.datasetId)).length = (batch.map (·.id)).length := by simp
  simp only [startBatch, startAttemptsBatch, hds, hids, Bool.or_self, Bool.false_eq_true, if_false, hlen, ne_eq,
    not_true_eq_false] at h
  split at h
  · rename_i hins
    split at h
    · cases h
    · rename_i hcount
      rw [not_not] at hcount
      obtain ⟨hstarted, _⟩ := Prod.mk.inj h
      cases hstarted
      -- as many rows as jobs: every input joined its lease
      have hall : ((batch.map (·.datasetId)).zip (batch.map (·.id))).filter
          (fun i => decide (LeasedIn db.jobs i.1 i.2 w.workerId)) = (batch.map (·.datasetId)).zip (batch.map (·.id)) := by
        refine List.filter_sublist.eq_of_length ?_
        rw [startRows, List.length_mapIdx] at hcount
        rw [hcount, List.length_zip, hlen, Nat.min_self]
      constructor
      · rw [List.map_map, startRows, hall]
        refine List.ext_getElem (by simp) fun n h₁ h₂ => ?_
        simp [runningAttempt]
      · rw [List.map_map]
        have hnd := hins.2.1
        rw [List.map_append, List.nodup_append'] at hnd
        exact hnd.2.1
  · cases h

end Start

/-! ## Turns of the loop -/

/-- `lease_jobs_batch`, as the loop calls it. -/
def leaseJobsBatch (w : Config) (env : LeaseEnv) (db : Db) : Outcome (List JobRow) × Db :=
  leaseJobsBatchWithOrdering db env
    { queue := w.queue, workerId := w.workerId, leaseSeconds := w.leaseSeconds, batchSize := w.dequeueBatchSize,
      ordering := .fifo }

/-- What the surroundings decide during a turn: what a lease and a round need, and what everyone else does between
    them. -/
structure TurnEnv extends RoundEnv where
  lease : LeaseEnv
  beforeStart : Db → Db

/-- A turn of the loop, reaping apart: a lease, and the round of its batch. -/
def workerTurn (w : Config) (env : TurnEnv) (db : Db) : Outcome Unit × Db :=
  match leaseJobsBatch w env.lease db with
  | (.ok batch, db) => workerRound w env.toRoundEnv batch (env.beforeStart db)
  | (.err e, db) => (.err e, db)
  | (.panic, db) => (.panic, db)

section Turn

variable {w : Config} {env : TurnEnv} {db db₁ db₂ : Db} {started : List (Uuid × Uuid × Int)}

/-- A batch is of one dataset, and holds no job twice. -/
theorem leased_batch {lenv : LeaseEnv} {req : LeaseRequest} {batch : List JobRow}
    (h : leaseJobsBatchWithOrdering db lenv req = (.ok batch, db₁)) :
    (∃ datasetId, ∀ j ∈ batch, j.datasetId = datasetId) ∧ (batch.map (·.id)).Nodup := by
  simp only [leaseJobsBatchWithOrdering] at h
  split at h
  · cases h
    exact ⟨⟨"", by simp⟩, by simp⟩
  · rename_i datasetId hpick
    split at h
    · cases h
      exact ⟨⟨"", by simp⟩, by simp⟩
    · split at h
      · obtain ⟨hbatch, _⟩ := Prod.mk.inj h
        cases hbatch
        obtain ⟨_, hperm⟩ := leaseCandidates_sweep db lenv req datasetId
        refine ⟨⟨datasetId, fun j hj => ?_⟩, ?_⟩
        · obtain ⟨r, hr, rfl⟩ := List.mem_map.mp (hperm.subset hj)
          exact (mem_batchOf hr).2.1
        · refine (hperm.map (·.id)).nodup_iff.mpr ?_
          rw [List.map_map]
          exact batchOf_nodup datasetId req.ordering (clampBatch req.batchSize)
      · cases h

/-- **When a round settles its batch.** Once a batch is leased and its attempts are started, the outcomes are one for each
    job of it. If nobody else touches the rows of the batch between the reports, the turn returns `Ok` exactly if the
    database that the tasks left lets every outcome be recorded, and then it has settled each job and each attempt as its
    task ended, whatever order the tasks joined in. All else changes as the others change it: every relation that their
    steps keep holds between what the tasks left and what the turn leaves. -/
theorem worker_round_ok_iff {first : JobRow} {rest : List JobRow}
    (hlease : leaseJobsBatch w env.lease db = (.ok (first :: rest), db₁))
    (hstart : startBatch w env.toRoundEnv (first :: rest) (env.beforeStart db₁) = (.ok started, db₂))
    (hleaves : ∀ m, Leaves ((first :: rest).map (·.id)) (started.map (·.2.1)) (env.between m)) :
    (batchOutcomes w env.task (first :: rest) started).map (·.jobId) = (first :: rest).map (·.id) ∧
      ((workerTurn w env db).1 = .ok () ↔ ∀ o ∈ batchOutcomes w env.task (first :: rest) started,
        Accepts w env.toRoundEnv first.datasetId (env.meanwhile db₂).jobs o) ∧
      ((workerTurn w env db).1 = .ok () →
        Patched ((first :: rest).map (·.id)) (started.map (·.2.1))
          ((batchOutcomes w env.task (first :: rest) started).map (settledJob w env.toRoundEnv))
          ((batchOutcomes w env.task (first :: rest) started).map (settledAttempt w env.toRoundEnv)) (env.meanwhile db₂)
          (workerTurn w env db).2) ∧
      ∀ R : Rest → Rest → Prop, (∀ x, R x x) → (∀ x y z, R x y → R y z → R x z) →
        (∀ m db, R (restOf ((first :: rest).map (·.id)) (started.map (·.2.1)) db)
          (restOf ((first :: rest).map (·.id)) (started.map (·.2.1)) (env.between m db))) →
        R (restOf ((first :: rest).map (·.id)) (started.map (·.2.1)) (env.meanwhile db₂))
          (restOf ((first :: rest).map (·.id)) (started.map (·.2.1)) (workerTurn w env db).2) := by
  obtain ⟨⟨datasetId, hds⟩, hnd⟩ := leased_batch hlease
  obtain ⟨hjobs, hattempts⟩ := startBatch_ok (List.cons_ne_nil first rest) hstart
  obtain ⟨hoJobs, hoAttempts⟩ := @batchOutcomes_ids w env.task (first :: rest) started hjobs
  have hmixed : (first :: rest).any (fun j => j.datasetId != first.datasetId) = false := by
    rw [List.any_eq_false]
    intro j hj
    simp [hds j hj, hds first List.mem_cons_self]
  have hcount : started.length = (first :: rest).length := by
    have hlen := congrArg List.length hjobs
    rwa [List.length_map, List.length_map] at hlen
  have hspawn := @spawnTasks_spec w env.task (first :: rest) started (attemptsMap started) hjobs hnd
    fun a ha => Quickstart.attemptsMap_of_mem (hjobs ▸ hnd) ha
  have hturn : workerTurn w env db = recordOutcomes w env.toRoundEnv first.datasetId
      (env.join (batchOutcomes w env.task (first :: rest) started)) (env.meanwhile db₂) := by
    unfold workerTurn
    rw [hlease]
    simp only [workerRound, hmixed, Bool.false_eq_true, if_false, hstart, hcount, ne_eq, not_true_eq_false, hspawn]
  have hjoin := env.joins (batchOutcomes w env.task (first :: rest) started)
  have hndJ : ((env.join (batchOutcomes w env.task (first :: rest) started)).map (·.jobId)).Nodup :=
    (hjoin.map _).nodup_iff.mpr (hoJobs ▸ hnd)
  have hndA : ((env.join (batchOutcomes w env.task (first :: rest) started)).map (·.attemptId)).Nodup :=
    (hjoin.map _).nodup_iff.mpr (hoAttempts ▸ hattempts)
  have hin : ∀ o ∈ env.join (batchOutcomes w env.task (first :: rest) started),
      o.jobId ∈ (first :: rest).map (·.id) ∧ o.attemptId ∈ started.map (·.2.1) := by
    intro o ho
    rw [← hoJobs, ← hoAttempts]
    exact ⟨List.mem_map_of_mem (hjoin.subset ho), List.mem_map_of_mem (hjoin.subset ho)⟩
  obtain ⟨hokIff, hdone⟩ := recordOutcomes_spec w hleaves first.datasetId _ (env.meanwhile db₂) hin hndJ hndA
  rw [hturn]
  refine ⟨hoJobs, hokIff.trans ?_, fun hok => ?_, fun R hrefl htrans hbetween => ?_⟩
  · exact ⟨fun h o ho => h o (hjoin.symm.subset ho), fun h o ho => h o (hjoin.subset ho)⟩
  · refine (hdone (hokIff.mp hok)).perm (hjoin.map _) (hjoin.map _) ?_ ?_
    · rwa [map_settledJob]
    · rwa [map_settledAttempt]
  · exact recordOutcomes_rest hrefl htrans hbetween w first.datasetId _ (env.meanwhile db₂) hin

/-! ### A job that panics -/

def emailWorker : Config :=
  { queue := "emails", workerId := "w1", leaseSeconds := 30, dequeueBatchSize := 10, handlers := fun _ => true }

/-- Two due jobs of the worker's queue, and one of another queue. -/
def threeJobs : JobsTable :=
  ⟨[emailRow 1 "emails_19700101_00" 0 0, emailRow 2 "emails_19700101_00" 0 1000000000,
    { emailRow 3 "reports_19700101_00" 0 0 with queue := "reports" }], by decide⟩

/-- Another client cancels the job of the other queue. -/
def cancelOther (db : Db) : Db :=
  { db with jobs := db.jobs.update (fun r => r.id == 3) { set := fun r => { r with status := "canceled" } } }

/-- The task of job 2 panics, and is joined first; the other client comes before the report of the panic. -/
def panicTurn : TurnEnv :=
  { lease := ⟨5000000000, 0⟩, beforeStart := id, startNow := 6, newId := fun n => 10 + n,
    task := fun jobId => ⟨if jobId = 2 then .panic "index out of bounds" else .ok, 4⟩,
    join := List.reverse, joins := List.reverse_perm, meanwhile := id,
    between := fun m => if m = .report 2 then cancelOther else id, finishNow := 20, now := 21, scan := id,
    scans := fun _ => .refl _,
    failure := fun _ => { finishNow := 22, now := 23, updateNow := 24, retryCfg := RetryConfig.default, rng := lowest },
    retryCfg := fun _ => rfl }

theorem panicTurn_leaves (m : Moment) : Leaves [1, 2] [10, 11] (panicTurn.between m) := by
  by_cases hm : m = .report 2
  · simp only [panicTurn, if_pos hm]
    refine ⟨fun db k hk => ?_, fun _ _ _ => rfl⟩
    unfold jobAt cancelOther
    rw [Table.lookup_update fun _ => rfl]
    refine (Option.map_congr fun r hr => if_neg ?_).trans (Option.map_id' ..)
    rw [(Table.lookup_some hr).2, beq_iff_eq]
    rintro rfl
    exact absurd hk (by decide)
  · simp only [panicTurn, if_neg hm]
    exact ⟨fun _ _ _ => rfl, fun _ _ _ => rfl⟩

/-- The job that panicked is in the DLQ, though it has attempts left, and the other one has succeeded. -/
theorem worker_round_ok_iff_panic :
    (jobAt (workerTurn emailWorker panicTurn (dbWith threeJobs none)).2 1).map (·.status) = some "succeeded" ∧
      (jobAt (workerTurn emailWorker panicTurn (dbWith threeJobs none)).2 2).map (·.status) = some "dlq" := by
  have hlease : leaseJobsBatch emailWorker panicTurn.lease (dbWith threeJobs none) =
      (.ok [leasedRow 5000000000 "w1" 30 (emailRow 1 "emails_19700101_00" 0 0),
        leasedRow 5000000000 "w1" 30 (emailRow 2 "emails_19700101_00" 0 1000000000)],
        (leaseJobsBatch emailWorker panicTurn.lease (dbWith threeJobs none)).2) := Prod.ext (by decide) rfl
  have hstart : startBatch emailWorker panicTurn.toRoundEnv
      [leasedRow 5000000000 "w1" 30 (emailRow 1 "emails_19700101_00" 0 0),
        leasedRow 5000000000 "w1" 30 (emailRow 2 "emails_19700101_00" 0 1000000000)]
      (leaseJobsBatch emailWorker panicTurn.lease (dbWith threeJobs none)).2 =
      (.ok [(1, 10, 1), (2, 11, 1)], (startBatch emailWorker panicTurn.toRoundEnv
        [leasedRow 5000000000 "w1" 30 (emailRow 1 "emails_19700101_00" 0 0),
          leasedRow 5000000000 "w1" 30 (emailRow 2 "emails_19700101_00" 0 1000000000)]
        (leaseJobsBatch emailWorker panicTurn.lease (dbWith threeJobs none)).2).2) := Prod.ext (by decide) rfl
  have hok : (workerTurn emailWorker panicTurn (dbWith threeJobs none)).1 = .ok () := by decide
  obtain ⟨_, _, hdone, _⟩ := worker_round_ok_iff hlease hstart panicTurn_leaves
  have hjobs := (hdone hok).jobs
  rw [hjobs 1 (by decide), hjobs 2 (by decide)]
  decide

end Turn

end Azums.Worker
