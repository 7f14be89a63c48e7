import Azums.Memory.Effects
import Azums.Memory.Run
import Azums.Quickstart.ProcessBatch

/-!
# `Quickstart.Records` — which outcomes a batch records

`process_batch` starts the attempts of the whole batch first, then runs the jobs one by one. Every exit from the
loop's body goes on with the next job, except the timeout branch, which returns from the function. So the jobs
behind a timed-out one keep their running attempts, and `run_until_empty` counts them all the same.

`process_batch_records_iff` says for every batch when all its outcomes are recorded, and when the count of
`run_until_empty` is the number of recorded outcomes.
-/

namespace Azums.Quickstart

open Azums.Jobs Azums.Memory
open Function (update)

/-! ## Recorded outcomes -/

/-- The outcome of a job is recorded: its attempt is closed, and it has succeeded, waits for a retry, or is in the
    dead-letter queue. -/
def Recorded (s : InnerState) (jobId attemptId : Uuid) : Prop :=
  (s.attempts attemptId).any (fun att => att.status != "running") = true ∧
    (s.jobs jobId).any (fun job => job.status == "succeeded" || job.status == "queued" || job.status == "dlq") = true

instance (s : InnerState) (jobId attemptId : Uuid) : Decidable (Recorded s jobId attemptId) :=
  inferInstanceAs (Decidable (_ ∧ _))

/-- The attempt is running. -/
def Open (s : InnerState) (attemptId : Uuid) : Prop :=
  ∃ att, s.attempts attemptId = some att ∧ att.status = "running"

variable {flow : Flow} {s s' : InnerState}

theorem Open.not_recorded {jobId attemptId : Uuid} (h : Open s attemptId) : ¬Recorded s jobId attemptId := by
  rintro ⟨hatt, _⟩
  obtain ⟨att, heq, hst⟩ := h
  simp [heq, hst] at hatt

theorem recorded_of_acked {jobId attemptId spare : Uuid} (h : Acked s s' jobId attemptId spare) :
    Recorded s' jobId attemptId := by
  obtain ⟨att, hatt, hne⟩ := h.closed
  obtain ⟨job, hjob, hst⟩ := h.settled
  constructor
  · simp [hatt, hne]
  · rcases hst with hst | hst | hst <;> simp [hjob, hst]

/-! ## A calm run

The assumptions on the surroundings: nobody takes a lease of the batch away, and ids that are drawn are fresh. -/

/-- The jobs of the batch keep their status and owner, and their attempts their status. Heartbeats do this, and so
    does everything that leaves the batch alone. -/
def KeepsLeases (env : Uuid → JobEnv) (batch : List Job) (s s' : InnerState) : Prop :=
  ∀ job ∈ batch,
    (s'.jobs job.id).map (fun j => (j.status, j.lockedBy)) = (s.jobs job.id).map (fun j => (j.status, j.lockedBy)) ∧
    (s'.attempts (env job.id).attemptId).map (fun a => (a.status, a.jobId)) =
      (s.attempts (env job.id).attemptId).map (fun a => (a.status, a.jobId))

/-- While the loop runs over the rest of a batch, the leases stay and drawn ids are unused. -/
def CalmJobs (flow : Flow) (env : Uuid → JobEnv) (batch : List Job) :
    List Job → (Uuid → Option (Uuid × Int)) → InnerState → Prop
  | [], _, _ => True
  | job :: rest, attempts, s =>
      match attempts job.id with
      | none => CalmJobs flow env batch rest attempts s
      | some (attemptId, attemptNo) =>
          let s₁ := (env job.id).meanwhile s
          KeepsLeases env batch s s₁ ∧ (WellFormed s → WellFormed s₁) ∧ Unused s₁ (env job.id).newId ∧
            (timesOut flow (env job.id) job = false →
              CalmJobs flow env batch rest (update attempts job.id none)
                (recordOutcome flow (env job.id) s₁ job attemptId attemptNo).2)

/-- The same for a whole batch, from its lease on. -/
def CalmBatch (flow : Flow) (env : BatchEnv) (batch : List Job) (s : InnerState) : Prop :=
  KeepsLeases env.job batch s (env.beforeStart s) ∧ (WellFormed s → WellFormed (env.beforeStart s)) ∧
  (batch.map (fun job => (env.job job.id).attemptId)).Nodup ∧
  match startBatch flow env batch s with
  | (.ok started, s₁) => CalmJobs flow env.job batch batch (attemptsMap started) s₁
  | (.err _, _) | (.panic, _) => True

theorem KeepsLeases.recorded {env : Uuid → JobEnv} {batch : List Job} (h : KeepsLeases env batch s s')
    {job : Job} (hjob : job ∈ batch) (hrec : Recorded s job.id (env job.id).attemptId) :
    Recorded s' job.id (env job.id).attemptId := by
  obtain ⟨hj, ha⟩ := h job hjob
  obtain ⟨hatt, hst⟩ := hrec
  constructor
  · cases hs : s.attempts (env job.id).attemptId with
    | none => simp [hs] at hatt
    | some att =>
        rw [hs, Option.map_some, Option.map_eq_some_iff] at ha
        obtain ⟨att', hatt', heq⟩ := ha
        simp only [Prod.mk.injEq] at heq
        simp [hs] at hatt
        simp [hatt', heq.1, hatt]
  · cases hs : s.jobs job.id with
    | none => simp [hs] at hst
    | some j =>
        rw [hs, Option.map_some, Option.map_eq_some_iff] at hj
        obtain ⟨j', hj', heq⟩ := hj
        simp only [Prod.mk.injEq] at heq
        rw [hs, Option.any_some] at hst
        rw [hj', Option.any_some, heq.1]
        exact hst

theorem KeepsLeases.open {env : Uuid → JobEnv} {batch : List Job} (h : KeepsLeases env batch s s')
    {job : Job} (hjob : job ∈ batch) (hopen : Open s (env job.id).attemptId) :
    Open s' (env job.id).attemptId := by
  obtain ⟨_, ha⟩ := h job hjob
  obtain ⟨att, hatt, hst⟩ := hopen
  rw [hatt, Option.map_some, Option.map_eq_some_iff] at ha
  obtain ⟨att', hatt', heq⟩ := ha
  simp only [Prod.mk.injEq] at heq
  exact ⟨att', hatt', heq.1.trans hst⟩

theorem KeepsLeases.stored {env : Uuid → JobEnv} {batch : List Job} (h : KeepsLeases env batch s s')
    {job : Job} (hjob : job ∈ batch) (hs : (s.jobs job.id).isSome) : (s'.jobs job.id).isSome := by
  have hj := congrArg Option.isSome (h job hjob).1
  rw [Option.isSome_map, Option.isSome_map] at hj
  rw [hj]
  exact hs

/-! ## One job -/

variable {env : JobEnv} {job : Job} {attemptId : Uuid} {attemptNo : Int}

theorem handleFailure_acked {jobId : Uuid} {errorCode errorMessage : String} {maxAttempts : Int}
    (h : handleFailure flow env s jobId attemptId errorCode errorMessage attemptNo maxAttempts = (.ok (), s'))
    (spare : Uuid) : Acked s s' jobId attemptId spare := by
  unfold handleFailure at h
  split at h
  · cases hadd : Chrono.addSeconds env.clock env.delaySecs with
    | none => rw [hadd] at h; cases h
    | some nextRunAt =>
        rw [hadd] at h
        exact rescheduleForRetry_acked h spare
  · exact markDlq_acked h spare

theorem handleFailure_wellFormed (h : WellFormed s) (jobId : Uuid) (errorCode errorMessage : String)
    (maxAttempts : Int) :
    WellFormed (handleFailure flow env s jobId attemptId errorCode errorMessage attemptNo maxAttempts).2 := by
  unfold handleFailure
  split
  · cases Chrono.addSeconds env.clock env.delaySecs with
    | none => exact h
    | some nextRunAt => exact rescheduleForRetry_wellFormed h _ _ _ _ _ _ _
  · exact markDlq_wellFormed h _ _ _ _ _ _ _

/-- Whatever the handler did, an outcome that the backend accepts is recorded. -/
theorem recordOutcome_acked (hfresh : Unused s env.newId)
    (h : recordOutcome flow env s job attemptId attemptNo = (.ok (), s')) :
    Acked s s' job.id attemptId env.newId := by
  unfold recordOutcome at h
  cases hres : resOutcome flow env job with
  | ok u =>
      rw [hres] at h
      exact markSucceeded_acked hfresh.1 h
  | error errStr =>
      rw [hres] at h
      simp only at h
      split at h
      · exact markDlq_acked h _
      · exact handleFailure_acked h _

theorem recordOutcome_wellFormed (h : WellFormed s) (hfresh : Unused s env.newId) :
    WellFormed (recordOutcome flow env s job attemptId attemptNo).2 := by
  unfold recordOutcome
  cases resOutcome flow env job with
  | ok u => exact markSucceeded_wellFormed h hfresh.1 hfresh.2 _ _ _ _
  | error errStr =>
      simp only
      split
      · exact markDlq_wellFormed h _ _ _ _ _ _ _
      · exact handleFailure_wellFormed h _ _ _ _

/-- An acknowledgement of one job leaves the other jobs of the batch as they were. -/
theorem acked_other {jobId spare : Uuid} {env : Uuid → JobEnv} {other : Job}
    (h : Acked s s' jobId attemptId spare) (hfresh : Unused s spare) (hstored : (s.jobs other.id).isSome)
    (hid : other.id ≠ jobId) (hatt : (env other.id).attemptId ≠ attemptId) :
    s'.jobs other.id = s.jobs other.id ∧
      s'.attempts (env other.id).attemptId = s.attempts (env other.id).attemptId := by
  refine ⟨h.jobs _ hid ?_, h.attempts _ hatt⟩
  intro he
  rw [he, hfresh.1] at hstored
  cases hstored

/-! ## The loop -/

section Loop

variable {env : Uuid → JobEnv} {batch : List Job}

/-- The assumptions of the loop over the rest of a batch: its jobs have their own attempts, which are running. -/
structure Pending (env : Uuid → JobEnv) (batch rest : List Job) (attempts : Uuid → Option (Uuid × Int))
    (s : InnerState) : Prop where
  sub : ∀ job ∈ rest, job ∈ batch
  nodup : (rest.map (·.id)).Nodup
  answered : ∀ job ∈ rest, ∃ attemptNo, attempts job.id = some ((env job.id).attemptId, attemptNo)
  running : ∀ job ∈ rest, Open s (env job.id).attemptId
  stored : ∀ job ∈ batch, (s.jobs job.id).isSome

/-- One acknowledged job: the rest stays pending, and what was recorded stays recorded. -/
theorem Pending.step (hinj : ∀ j ∈ batch, ∀ j' ∈ batch, (env j.id).attemptId = (env j'.id).attemptId → j.id = j'.id)
    {job : Job} {rest : List Job} {attempts : Uuid → Option (Uuid × Int)}
    (h : Pending env batch (job :: rest) attempts s) {s₁ : InnerState} (hkeep : KeepsLeases env batch s s₁)
    (hfresh : Unused s₁ (env job.id).newId)
    (hack : Acked s₁ s' job.id (env job.id).attemptId (env job.id).newId) :
    Pending env batch rest (update attempts job.id none) s' ∧
    (∀ other ∈ batch, other.id ≠ job.id → Recorded s other.id (env other.id).attemptId →
      Recorded s' other.id (env other.id).attemptId) := by
  obtain ⟨hnotin, hnd⟩ := List.nodup_cons.mp h.nodup
  have hjob : job ∈ batch := h.sub job List.mem_cons_self
  -- the other jobs of the batch: neither their records nor their attempts are the ones written
  have hother : ∀ other ∈ batch, other.id ≠ job.id → s'.jobs other.id = s₁.jobs other.id ∧
      s'.attempts (env other.id).attemptId = s₁.attempts (env other.id).attemptId := by
    intro other ho hne
    exact acked_other hack hfresh (hkeep.stored ho (h.stored other ho)) hne fun he => hne (hinj other ho job hjob he)
  have hne : ∀ other ∈ rest, other.id ≠ job.id := by
    intro other ho he
    exact hnotin (List.mem_map.mpr ⟨other, ho, he⟩)
  refine ⟨⟨fun j hj => h.sub j (List.mem_cons_of_mem _ hj), hnd, ?_, ?_, ?_⟩, ?_⟩
  · intro j hj
    rw [Function.update_of_ne (hne j hj)]
    exact h.answered j (List.mem_cons_of_mem _ hj)
  · intro j hj
    obtain ⟨att, hatt, hst⟩ := hkeep.open (h.sub j (List.mem_cons_of_mem _ hj))
      (h.running j (List.mem_cons_of_mem _ hj))
    refine ⟨att, ?_, hst⟩
    rw [(hother j (h.sub j (List.mem_cons_of_mem _ hj)) (hne j hj)).2, hatt]
  · intro j hj
    by_cases he : j.id = job.id
    · obtain ⟨j', hj', _⟩ := hack.settled
      rw [he, hj']; rfl
    · rw [(hother j hj he).1]
      exact hkeep.stored hj (h.stored j hj)
  · intro other ho he hrec
    have hrec₁ := hkeep.recorded ho hrec
    obtain ⟨hj, ha⟩ := hother other ho he
    unfold Recorded
    rw [hj, ha]
    exact hrec₁

/-- **The loop lemma**, by induction on the jobs still to be processed. When the loop returns `Ok`, their outcomes
    are recorded exactly if none before the last one times out; what was recorded before stays so. -/
theorem processJobs_records
    (hinj : ∀ j ∈ batch, ∀ j' ∈ batch, (env j.id).attemptId = (env j'.id).attemptId → j.id = j'.id)
    (rest : List Job) : ∀ (attempts : Uuid → Option (Uuid × Int)) (s : InnerState) {s' : InnerState},
      Pending env batch rest attempts s → CalmJobs flow env batch rest attempts s →
      processJobs flow env rest attempts s = (.ok (), s') →
      ((∀ job ∈ rest, Recorded s' job.id (env job.id).attemptId) ↔
        ∀ job ∈ rest.dropLast, timesOut flow (env job.id) job = false) ∧
      (∀ job ∈ batch, job.id ∉ rest.map (·.id) → Recorded s job.id (env job.id).attemptId →
        Recorded s' job.id (env job.id).attemptId) ∧
      (WellFormed s → WellFormed s') := by
  induction rest with
  | nil =>
      intro attempts s s' _ _ hret
      cases hret
      refine ⟨?_, fun _ _ _ h => h, fun h => h⟩
      simp
  | cons job rest ih =>
      intro attempts s s' hpend hcalm hret
      obtain ⟨attemptNo, hans⟩ := hpend.answered job List.mem_cons_self
      unfold CalmJobs at hcalm
      unfold processJobs at hret
      rw [hans] at hcalm hret
      obtain ⟨hkeep, hwf, hfresh, hrest⟩ := hcalm
      simp only at hret
      by_cases htime : timesOut flow (env job.id) job = true
      · -- the branch that returns: this job is recorded, the next one is left as it is
        rw [if_pos htime] at hret
        have hack := handleFailure_acked hret (env job.id).newId
        obtain ⟨hpend', hstay⟩ := hpend.step hinj hkeep hfresh hack
        refine ⟨?_, ?_, ?_⟩
        · cases rest with
          -- no job is left after it
          | nil =>
              constructor
              · intro _ j hj; exact absurd hj (by simp)
              · intro _ j hj
                rw [List.mem_singleton.mp hj]
                exact recorded_of_acked hack
          | cons next rest =>
              constructor
              · intro hall
                exact absurd (hall next (by simp)) (hpend'.running next List.mem_cons_self).not_recorded
              · intro hnone
                have hfalse := hnone job (by simp)
                rw [htime] at hfalse
                cases hfalse
        · intro j hj hnot
          exact hstay j hj fun he => hnot (List.mem_map.mpr ⟨job, List.mem_cons_self, he.symm⟩)
        · intro h
          have hs' : (recordTimeout flow (env job.id) ((env job.id).meanwhile s) job (env job.id).attemptId
              attemptNo).2 = s' := by rw [hret]
          rw [← hs']
          exact handleFailure_wellFormed (hwf h) _ _ _ _
      · rw [if_neg htime] at hret
        rw [Bool.not_eq_true] at htime
        cases hout : recordOutcome flow (env job.id) ((env job.id).meanwhile s) job (env job.id).attemptId
            attemptNo with
        | mk outcome s₂ =>
            have hcalm' := hrest htime
            have hdone (h : WellFormed ((env job.id).meanwhile s)) :
                WellFormed (recordOutcome flow (env job.id) ((env job.id).meanwhile s) job (env job.id).attemptId
                  attemptNo).2 := recordOutcome_wellFormed h hfresh
            rw [hout] at hret hcalm' hdone
            cases outcome with
            | err message => cases hret
            | panic => cases hret
            | ok u =>
                have hack := recordOutcome_acked hfresh hout
                obtain ⟨hpend', hstay⟩ := hpend.step hinj hkeep hfresh hack
                obtain ⟨hiff, hstay', hwf'⟩ := ih _ _ hpend' hcalm' hret
                -- what is recorded here stays recorded to the end of the loop
                have hself : Recorded s' job.id (env job.id).attemptId :=
                  hstay' job (hpend.sub job List.mem_cons_self) (List.nodup_cons.mp hpend.nodup).1
                    (recorded_of_acked hack)
                refine ⟨?_, ?_, fun h => hwf' (hdone (hwf h))⟩
                · rw [List.forall_mem_cons]
                  cases rest with
                  | nil =>
                      constructor
                      · intro _ j hj; exact absurd hj (by simp)
                      · intro _; exact ⟨hself, fun j hj => absurd hj List.not_mem_nil⟩
                  | cons next rest =>
                      rw [hiff, List.dropLast_cons_of_ne_nil (List.cons_ne_nil _ _), List.forall_mem_cons]
                      exact and_congr (iff_of_true hself htime) Iff.rfl
                · intro j hj hnot hrec
                  rw [List.map_cons, List.mem_cons, not_or] at hnot
                  exact hstay' j hj hnot.2 (hstay j hj hnot.1 hrec)

end Loop

/-! ## The batch -/

/-- No job before the last one of the batch times out. -/
def NoEarlyTimeout (flow : Flow) (env : BatchEnv) (batch : List Job) : Prop :=
  ∀ job ∈ batch.dropLast, timesOut flow (env.job job.id) job = false

/-- An answer of `start_attempts_batch` is found under its job, if no job is answered twice. -/
theorem attemptsMap_of_mem {started : List (Uuid × Uuid × Int)} (hnd : (started.map (·.1)).Nodup)
    {answer : Uuid × Uuid × Int} (h : answer ∈ started) : attemptsMap started answer.1 = some answer.2 := by
  have hfold : ∀ (l : List (Uuid × Uuid × Int)) (m : Uuid → Option (Uuid × Int)), (l.map (·.1)).Nodup →
      (∀ a ∈ l, l.foldl (fun m (a : Uuid × Uuid × Int) => update m a.1 (some (a.2.1, a.2.2))) m a.1 = some a.2) ∧
      ∀ id, id ∉ l.map (·.1) →
        l.foldl (fun m (a : Uuid × Uuid × Int) => update m a.1 (some (a.2.1, a.2.2))) m id = m id := by
    intro l
    induction l with
    | nil => intro m _; exact ⟨fun a ha => absurd ha List.not_mem_nil, fun _ _ => rfl⟩
    | cons b rest ih =>
        intro m hnd
        obtain ⟨hnotin, hnd⟩ := List.nodup_cons.mp hnd
        obtain ⟨hin, hout⟩ := ih (update m b.1 (some (b.2.1, b.2.2))) hnd
        rw [List.foldl_cons]
        constructor
        · intro a ha
          rcases List.mem_cons.mp ha with rfl | ha
          · rw [hout _ hnotin, Function.update_self]
          · exact hin a ha
        · intro id hid
          rw [List.map_cons, List.mem_cons, not_or] at hid
          rw [hout id hid.2, Function.update_of_ne hid.1]
  exact (hfold started _ hnd).1 answer h

/-- When `start_attempts_batch` succeeds, the whole batch is pending. -/
theorem startBatch_pending {env : BatchEnv} {batch : List Job} {started : List (Uuid × Uuid × Int)}
    (hnd : (batch.map (·.id)).Nodup) (hstored : ∀ job ∈ batch, (s.jobs job.id).isSome)
    (hkeep : KeepsLeases env.job batch s (env.beforeStart s))
    (hids : (batch.map (fun job => (env.job job.id).attemptId)).Nodup)
    (hret : startBatch flow env batch s = (.ok started, s')) :
    Pending env.job batch batch (attemptsMap started) s' := by
  have hreq : (batch.map (fun job => (job.id, (env.job job.id).attemptId))).map (·.2) =
      batch.map (fun job => (env.job job.id).attemptId) := by rw [List.map_map]; rfl
  obtain ⟨hanswers, hrun, _⟩ := startEach_spec _ _ hret (by rw [hreq]; exact hids)
  obtain ⟨hjobs, _, _⟩ := startEach_frame
    (batch.map (fun job => (job.id, (env.job job.id).attemptId))) (env.beforeStart s)
  have hs' : s'.jobs = (env.beforeStart s).jobs := by
    rw [← hjobs]
    exact (congrArg (fun r => r.2.jobs) hret).symm
  refine ⟨fun _ h => h, hnd, ?_, ?_, ?_⟩
  · intro job hjob
    have hmem : (job.id, (env.job job.id).attemptId) ∈ started.map (fun a => (a.1, a.2.1)) := by
      rw [hanswers]
      exact List.mem_map_of_mem hjob
    obtain ⟨answer, ha, heq⟩ := List.mem_map.mp hmem
    obtain ⟨hjid, haid⟩ := Prod.mk.injEq .. ▸ heq
    have hnd' : (started.map (·.1)).Nodup := by
      have hfst := congrArg (List.map Prod.fst) hanswers
      rw [List.map_map, List.map_map] at hfst
      exact hfst ▸ hnd
    refine ⟨answer.2.2, ?_⟩
    have hfound := attemptsMap_of_mem hnd' ha
    rw [hjid] at hfound
    rw [hfound, ← haid]
  · intro job hjob
    obtain ⟨att, hatt, hst, _⟩ := hrun _ (List.mem_map_of_mem hjob)
    exact ⟨att, hatt, hst⟩
  · intro job hjob
    rw [hs']
    exact hkeep.stored hjob (hstored job hjob)

/-- **The batch lemma.** When `process_batch` returns `Ok`, every outcome is recorded exactly if no job before the
    last one timed out. -/
theorem processBatch_records {env : BatchEnv} {batch : List Job} (hnd : (batch.map (·.id)).Nodup)
    (hstored : ∀ job ∈ batch, (s.jobs job.id).isSome) (hcalm : CalmBatch flow env batch s)
    (hret : processBatch flow env batch s = (.ok (), s')) :
    ((∀ job ∈ batch, Recorded s' job.id (env.job job.id).attemptId) ↔ NoEarlyTimeout flow env batch) ∧
    (WellFormed s → WellFormed s') := by
  obtain ⟨hkeep, hwf, hids, hrun⟩ := hcalm
  unfold processBatch at hret
  cases hstart : startBatch flow env batch s with
  | mk outcome s₁ =>
      rw [hstart] at hret hrun
      cases outcome with
      | err message => cases hret
      | panic => cases hret
      | ok started =>
          have hinj : ∀ j ∈ batch, ∀ j' ∈ batch,
              (env.job j.id).attemptId = (env.job j'.id).attemptId → j.id = j'.id := by
            intro j hj j' hj' heq
            rw [List.inj_on_of_nodup_map hids hj hj' heq]
          obtain ⟨hiff, _, hwf'⟩ := processJobs_records hinj batch _ _
            (startBatch_pending hnd hstored hkeep hids hstart) hrun hret
          refine ⟨hiff, fun h => hwf' ?_⟩
          have hs₁ : (startBatch flow env batch s).2 = s₁ := by rw [hstart]
          rw [← hs₁]
          exact startAttemptsBatch_wellFormed (hwf h)
            (batch.map (fun job => (job.id, (env.job job.id).attemptId))) flow.workerId

/-! ## Until the queue is empty -/

/-- A calm run: every round leases from a well-formed state, and every batch is processed calmly. -/
def CalmRun (flow : Flow) : List RoundEnv → InnerState → Prop
  | [], _ => True
  | round :: rest, s =>
      (WellFormed s → WellFormed (round.beforeLease s)) ∧
      match leaseRound flow round s with
      | (.ok batch, s₁) =>
          CalmBatch flow round.batch batch s₁ ∧ CalmRun flow rest (processBatch flow round.batch batch s₁).2
      | (.err _, _) | (.panic, _) => True

/-- In no round of the run does a job before the last one of its batch time out. -/
def NoEarlyTimeouts (flow : Flow) : List RoundEnv → InnerState → Prop
  | [], _ => True
  | round :: rest, s =>
      match leaseRound flow round s with
      | (.ok batch, s₁) =>
          NoEarlyTimeout flow round.batch batch ∧
            (batch.isEmpty = false → NoEarlyTimeouts flow rest (processBatch flow round.batch batch s₁).2)
      | (.err _, _) | (.panic, _) => True

/-- How many outcomes a run records, each counted at the end of its round. -/
def recordedCount (flow : Flow) : List RoundEnv → InnerState → Nat
  | [], _ => 0
  | round :: rest, s =>
      match leaseRound flow round s with
      | (.ok batch, s₁) =>
          if batch.isEmpty then 0
          else
            let s₂ := (processBatch flow round.batch batch s₁).2
            batch.countP (fun job => decide (Recorded s₂ job.id (round.batch.job job.id).attemptId)) +
              recordedCount flow rest s₂
      | (.err _, _) | (.panic, _) => 0

/-- **The run lemma**, by induction on the rounds. The returned count is at least the recorded one, and equal to it
    exactly if no batch was left early. -/
theorem runUntilEmpty_count (rounds : List RoundEnv) : ∀ (s : InnerState) (total n : Nat) {s' : InnerState},
    WellFormed s → CalmRun flow rounds s → runUntilEmpty flow rounds s total = some (.ok n, s') →
    total + recordedCount flow rounds s ≤ n ∧
      (n = total + recordedCount flow rounds s ↔ NoEarlyTimeouts flow rounds s) := by
  induction rounds with
  | nil => intro s total n s' _ _ hret; cases hret
  | cons round rest ih =>
      intro s total n s' hwf hcalm hret
      unfold CalmRun at hcalm
      unfold runUntilEmpty at hret
      unfold recordedCount NoEarlyTimeouts
      obtain ⟨hbefore, hbatch⟩ := hcalm
      cases hlease : leaseRound flow round s with
      | mk outcome s₁ =>
          rw [hlease] at hret hbatch
          cases outcome with
          | err message => cases hret
          | panic => cases hret
          | ok batch =>
              obtain ⟨hcalm, hrest⟩ := hbatch
              obtain ⟨hnd, hleased⟩ := leased_spec (hbefore hwf) hlease
              have hwf₁ : WellFormed s₁ := by
                have hs₁ : (leaseRound flow round s).2 = s₁ := by rw [hlease]
                have hne : (leaseRound flow round s).1 ≠ .panic := by rw [hlease]; simp
                rw [← hs₁]
                exact leaseJobsBatchWithOrdering_wellFormed (hbefore hwf) flow.queue flow.workerId
                  flow.leaseSeconds 32 flow.ordering hne
              simp only at hret ⊢
              by_cases hempty : batch.isEmpty = true
              · rw [if_pos hempty] at hret ⊢
                cases hret
                rw [List.isEmpty_iff] at hempty
                subst hempty
                simp [NoEarlyTimeout]
              · rw [if_neg hempty] at hret ⊢
                rw [Bool.not_eq_true] at hempty
                cases hproc : processBatch flow round.batch batch s₁ with
                | mk outcome s₂ =>
                    rw [hproc] at hret hrest
                    cases outcome with
                    | err message => cases hret
                    | panic => cases hret
                    | ok u =>
                        have hstored : ∀ job ∈ batch, (s₁.jobs job.id).isSome := by
                          intro job hjob; rw [(hleased job hjob).1]; rfl
                        obtain ⟨hiff, hwf₂⟩ := processBatch_records hnd hstored hcalm hproc
                        obtain ⟨hle, heq⟩ := ih s₂ (total + batch.length) n (hwf₂ hwf₁) hrest hret
                        have hcount : batch.countP (fun job =>
                            decide (Recorded s₂ job.id (round.batch.job job.id).attemptId)) ≤ batch.length :=
                          List.countP_le_length
                        have hall : batch.countP (fun job =>
                            decide (Recorded s₂ job.id (round.batch.job job.id).attemptId)) = batch.length ↔
                            NoEarlyTimeout flow round.batch batch := by
                          rw [List.countP_eq_length, ← hiff]
                          simp only [decide_eq_true_eq]
                        simp only [hempty, true_implies]
                        rw [← hall, ← heq]
                        omega

/-- **When outcomes are recorded.** From every reachable state of the backend, with no lease of the batch lost
    meanwhile and fresh ids: a `process_batch` over a leased batch that returns `Ok` has recorded every outcome
    exactly if no job before the batch's last one timed out; and the count that `run_until_empty` returns is the
    number of recorded outcomes exactly if that holds of each of its batches. -/
theorem process_batch_records_iff {s : InnerState} (hs : memorySystem.Reachable s) (flow : Flow) :
    (∀ (env : BatchEnv) (now : DateTime) (batchSize : Int) (batch : List Job) (s₁ s' : InnerState),
      leaseJobsBatchWithOrdering s now flow.queue flow.workerId flow.leaseSeconds batchSize flow.ordering =
        (.ok batch, s₁) →
      CalmBatch flow env batch s₁ → processBatch flow env batch s₁ = (.ok (), s') →
      ((∀ job ∈ batch, Recorded s' job.id (env.job job.id).attemptId) ↔ NoEarlyTimeout flow env batch)) ∧
    (∀ (rounds : List RoundEnv) (n : Nat) (s' : InnerState), CalmRun flow rounds s →
      runUntilEmpty flow rounds s 0 = some (.ok n, s') →
      (n = recordedCount flow rounds s ↔ NoEarlyTimeouts flow rounds s)) := by
  have hwf := reachable_wellFormed hs
  constructor
  · intro env now batchSize batch s₁ s' hlease hcalm hret
    obtain ⟨hnd, hleased⟩ := leased_spec hwf hlease
    refine (processBatch_records hnd ?_ hcalm hret).1
    intro job hjob
    rw [(hleased job hjob).1]
    rfl
  · intro rounds n s' hcalm hret
    have hcount := (runUntilEmpty_count rounds s 0 n hwf hcalm hret).2
    rwa [Nat.zero_add] at hcount

/-! ### A timeout in front of another job -/

theorem KeepsLeases.refl (env : Uuid → JobEnv) (batch : List Job) (s : InnerState) :
    KeepsLeases env batch s s := fun _ _ => ⟨rfl, rfl⟩

/-- A worker of `emails` with a handler for every job type. -/
def emailFlow : Flow :=
  { queue := "emails", workerId := "w1", leaseSeconds := 30, ordering := .fifo, handlers := fun _ => true }

/-- Nothing else happens while a handler that returns `Ok` runs, or sleeps past its timeout. -/
def quietJob (timedOut : Bool) (jobId : Uuid) : JobEnv :=
  { attemptId := 10 + jobId, meanwhile := id, timedOut := timedOut, taskEnd := .ok, latencyMs := 5, now := 20,
    clock := 20, delaySecs := 2, newId := 20 + jobId }

/-- A batch in which the jobs below `late` time out. -/
def quietBatch (late : Uuid) : BatchEnv :=
  { beforeStart := id, startNow := 10, job := fun jobId => quietJob (decide (jobId < late)) jobId }

/-- A job with a timeout of one second. -/
def timedEmail : NewJob := { welcomeEmail with timeoutSeconds := some 1 }

/-- Two of them, under the ids 1 and 2. -/
def twoTimedEmails : InnerState :=
  ((MemOp.enqueue 0 2 [1] timedEmail).apply ((MemOp.enqueue 0 1 [] timedEmail).apply InnerState.init).2).2

theorem twoTimedEmails_reachable : memorySystem.Reachable twoTimedEmails := by
  obtain ⟨hfirst, horder⟩ := enqueue_reachable (.start rfl) enumerates_nil 0 1 timedEmail ⟨rfl, rfl⟩ rfl
  exact (enqueue_reachable hfirst horder 0 2 timedEmail ⟨rfl, rfl⟩ rfl).1

/-- The batch that leases both. -/
def twoLeased : List Job × InnerState :=
  leaseEach 5 (5 + 30 * Chrono.nanosPerSecond) "w1" (candidates twoTimedEmails 5 "emails" 32)
    (twoTimedEmails.indexRemove "emails" (candidates twoTimedEmails 5 "emails" 32))

theorem twoLeased_eq :
    leaseJobsBatchWithOrdering twoTimedEmails 5 "emails" "w1" 30 32 .fifo = (.ok twoLeased.1, twoLeased.2) :=
  rfl

/-- Both runs of the batch below are calm. -/
theorem twoLeased_calm (late : Uuid) : CalmBatch emailFlow (quietBatch late) twoLeased.1 twoLeased.2 := by
  have hids : (twoLeased.1.map (fun job => ((quietBatch late).job job.id).attemptId)).Nodup := by
    show [11, 12].Nodup
    decide
  refine ⟨KeepsLeases.refl _ _ _, fun h => h, hids, ?_⟩
  have hstart : startBatch emailFlow (quietBatch late) twoLeased.1 twoLeased.2 =
      (.ok [(1, 11, 1), (2, 12, 1)], (startBatch emailFlow (quietBatch late) twoLeased.1 twoLeased.2).2) := rfl
  rw [hstart]
  refine show _ ∧ _ ∧ _ ∧ _ from ⟨KeepsLeases.refl _ _ _, fun h => h, ⟨rfl, rfl⟩, fun _ => ?_⟩
  exact show _ ∧ _ ∧ _ ∧ _ from ⟨KeepsLeases.refl _ _ _, fun h => h, ⟨rfl, rfl⟩, fun _ => trivial⟩

/-- The first job times out: `process_batch` returns `Ok`, and the second job is left running with a running
    attempt. `run_until_empty` still counts two. -/
theorem process_batch_abandons :
    CalmBatch emailFlow (quietBatch 2) twoLeased.1 twoLeased.2 ∧
    (processBatch emailFlow (quietBatch 2) twoLeased.1 twoLeased.2).1 = .ok () ∧
    (runUntilEmpty emailFlow [⟨id, 5, quietBatch 2⟩, ⟨id, 30, quietBatch 2⟩] twoTimedEmails 0).map (·.1) =
      some (.ok 2) ∧
    recordedCount emailFlow [⟨id, 5, quietBatch 2⟩, ⟨id, 30, quietBatch 2⟩] twoTimedEmails = 1 ∧
    ¬∀ job ∈ twoLeased.1, Recorded (processBatch emailFlow (quietBatch 2) twoLeased.1 twoLeased.2).2 job.id
      ((quietBatch 2).job job.id).attemptId := by
  refine ⟨twoLeased_calm 2, by decide, by decide, by decide, by decide⟩

/-- The rounds of a run over the two jobs in which no job times out; the second round finds the queue empty. -/
def quietRounds : List RoundEnv := [⟨id, 5, quietBatch 0⟩, ⟨id, 30, quietBatch 0⟩]

/-- No job times out: both outcomes are recorded, and `run_until_empty` counts them. -/
theorem process_batch_records_both :
    Recorded (processBatch emailFlow (quietBatch 0) twoLeased.1 twoLeased.2).2 1 11 ∧
    Recorded (processBatch emailFlow (quietBatch 0) twoLeased.1 twoLeased.2).2 2 12 ∧
    recordedCount emailFlow quietRounds twoTimedEmails = 2 := by
  have hret : processBatch emailFlow (quietBatch 0) twoLeased.1 twoLeased.2 =
      (.ok (), (processBatch emailFlow (quietBatch 0) twoLeased.1 twoLeased.2).2) := Prod.ext (by decide) rfl
  have hrun : runUntilEmpty emailFlow quietRounds twoTimedEmails 0 =
      some (.ok 2, (processBatch emailFlow (quietBatch 0) twoLeased.1 twoLeased.2).2) := rfl
  have hnone : NoEarlyTimeout emailFlow (quietBatch 0) twoLeased.1 := by
    unfold NoEarlyTimeout
    decide
  obtain ⟨hbatch, hcount⟩ := process_batch_records_iff twoTimedEmails_reachable emailFlow
  have hall := (hbatch (quietBatch 0) 5 32 _ _ _ twoLeased_eq (twoLeased_calm 0) hret).mpr hnone
  have hempty (s : InnerState) : CalmBatch emailFlow (quietBatch 0) [] s :=
    ⟨KeepsLeases.refl _ _ _, fun h => h, List.nodup_nil, trivial⟩
  have hcalm : CalmRun emailFlow quietRounds twoTimedEmails :=
    ⟨fun h => h, twoLeased_calm 0, fun h => h, hempty _, trivial⟩
  have hnones : NoEarlyTimeouts emailFlow quietRounds twoTimedEmails :=
    ⟨hnone, fun _ => ⟨fun _ h => absurd h List.not_mem_nil, fun h => by cases h⟩⟩
  refine ⟨hall _ List.mem_cons_self, hall _ (List.mem_cons_of_mem _ List.mem_cons_self), ?_⟩
  exact ((hcount quietRounds 2 _ hcalm hrun).mpr hnones).symm

end Azums.Quickstart
