import Azums.Memory.Idempotency
import Mathlib.Tactic.Linarith
import Mathlib.Tactic.Ring

/-!
# `Memory.Recurrence` — the schedule of a recurring job

The next occurrence of a recurring job takes its `run_at` and its deadline from the occurrence that was acknowledged,
each advanced by the interval. A retry writes the time of the next try into the same `run_at`, so the next occurrence
follows the retry and not the schedule; the deadline, which no retry touches, stays on the schedule.

`Series` keeps the occurrences of one job beside the backend's state: each as it was created, with the `run_at` that its
last retry gave it. `recurrence_iff` says when all of them are on schedule: exactly if no retry has moved an
occurrence that was acknowledged.
-/

namespace Azums.Memory

variable {s s' : InnerState} {now : DateTime} {id : Uuid} {new : NewJob} {interval : Int}

/-! ## The occurrences of a job -/

/-- One occurrence: its number, its id, the job as it was created, and the `run_at` its last retry gave it. -/
structure Occurrence where
  number : Nat
  id : Uuid
  created : Job
  retry : Option DateTime

/-- The `run_at` of an occurrence after its retries. -/
def Occurrence.runAt (occ : Occurrence) : DateTime := occ.retry.getD occ.created.runAt

/-- The backend, and the occurrences of one recurring job that acknowledgements have created. -/
structure Series where
  backend : InnerState
  latest : Occurrence
  earlier : List Occurrence

/-- The ids that a call draws for the next occurrence of the job `id`. -/
def nextIds (id : Uuid) : Call → List Uuid
  | .job (.markSucceeded _ newId jobId _ _ _) => if jobId = id then [newId] else []
  | .job (.markSucceededBatch updates _) => (updates.filter (fun u => decide (u.2.2.1 = id))).map (·.2.1)
  | _ => []

/-- The next occurrence of the job `id`, if the call that left `s'` has created it. -/
def nextCreated (id : Uuid) (call : Call) (s' : InnerState) : Option Job := (nextIds id call).findSome? s'.jobs

/-- The `run_at` that the call gives the job `id`, if it is a retry and accepted. -/
def retriedAt (s : InnerState) (id : Uuid) : Call → Option DateTime
  | .job (.reschedule now jobId attemptId workerId latencyMs nextRunAt errorCode errorMessage) =>
      if jobId = id ∧ (rescheduleForRetry s now jobId attemptId workerId latencyMs nextRunAt errorCode
        errorMessage).1 = .ok () then some nextRunAt else none
  | _ => none

/-- A call seen by the series: it may retry the latest occurrence, or create the next one. -/
def Series.follow (σ : Series) (call : Call) (s' : InnerState) : Series :=
  let latest := { σ.latest with retry := (retriedAt σ.backend σ.latest.id call).or σ.latest.retry }
  match nextCreated σ.latest.id call s' with
  | none => { backend := s', latest := latest, earlier := σ.earlier }
  | some next =>
      { backend := s'
        latest := { number := latest.number + 1, id := next.id, created := next, retry := none }
        earlier := latest :: σ.earlier }

/-- The backend from the moment a recurring job is enqueued. -/
def recurringSystem (new : NewJob) : System Series Call where
  init σ := ∃ s now newId order, backendSystem.Reachable s ∧ Unused s newId ∧ Enumerates s.jobs order ∧
    enqueue s now newId order new = (.ok newId, σ.backend) ∧
    σ.latest = { number := 0, id := newId, created := newEntity now newId new, retry := none } ∧ σ.earlier = []
  step σ call σ' := ∃ s', backendSystem.step σ.backend call s' ∧ σ' = σ.follow call s'

/-- The occurrence was created with the `run_at` and the deadline of its place in the schedule. -/
def OnSchedule (new : NewJob) (interval : Int) (occ : Occurrence) : Prop :=
  occ.created.runAt = new.runAt + occ.number * (interval * Chrono.nanosPerSecond) ∧
    occ.created.deadlineAt = new.deadlineAt.map (· + occ.number * (interval * Chrono.nanosPerSecond))

/-! ## From one occurrence to the next -/

/-- How the next occurrence follows from the one before it, whose `run_at` a retry may have moved. -/
structure Advances (interval : Int) (occ next : Occurrence) : Prop where
  number : next.number = occ.number + 1
  runAt : next.created.runAt = occ.runAt + interval * Chrono.nanosPerSecond
  deadlineAt : next.created.deadlineAt = occ.created.deadlineAt.map (· + interval * Chrono.nanosPerSecond)

/-- The occurrences so far, the latest first. -/
inductive Chain (new : NewJob) (interval : Int) : Occurrence → List Occurrence → Prop where
  | first {occ : Occurrence} : occ.number = 0 → occ.created.runAt = new.runAt →
      occ.created.deadlineAt = new.deadlineAt → Chain new interval occ []
  | next {occ next : Occurrence} {earlier : List Occurrence} : Advances interval occ next →
      Chain new interval occ earlier → Chain new interval next (occ :: earlier)

/-- A retry of the latest occurrence keeps the chain. -/
theorem Chain.retried {occ : Occurrence} {earlier : List Occurrence} (h : Chain new interval occ earlier)
    (retry : Option DateTime) : Chain new interval { occ with retry := retry } earlier := by
  cases h with
  | first hn hr hd => exact .first hn hr hd
  | next hadv hchain => exact .next ⟨hadv.number, hadv.runAt, hadv.deadlineAt⟩ hchain

/-- Every deadline is on schedule, whatever the retries. -/
theorem Chain.deadlineAt {occ : Occurrence} {earlier : List Occurrence} (h : Chain new interval occ earlier) :
    occ.created.deadlineAt = new.deadlineAt.map (· + occ.number * (interval * Chrono.nanosPerSecond)) := by
  induction h with
  | first hn _ hd => rw [hn, hd]; simp
  | next hadv _ ih =>
      rw [hadv.deadlineAt, ih, hadv.number, Option.map_map]
      refine congrArg (fun f => Option.map f new.deadlineAt) (funext fun d => ?_)
      simp only [Function.comp_apply, Nat.cast_add, Nat.cast_one]
      ring

/-- The occurrences are on schedule exactly if no retry has moved one that has a successor. -/
theorem Chain.onSchedule_iff {occ : Occurrence} {earlier : List Occurrence} (h : Chain new interval occ earlier) :
    (∀ o ∈ occ :: earlier, OnSchedule new interval o) ↔ ∀ o ∈ earlier, o.runAt = o.created.runAt := by
  induction h with
  | first hn hr hd =>
      simp [OnSchedule, hn, hr, hd]
  | @next occ next earlier hadv hchain ih =>
      rw [List.forall_mem_cons, ih, List.forall_mem_cons]
      constructor
      · rintro ⟨⟨hnext, _⟩, hmoved⟩
        refine ⟨?_, hmoved⟩
        have hocc := (ih.mpr hmoved occ List.mem_cons_self).1
        rw [hadv.runAt, hadv.number, Nat.cast_add, Nat.cast_one] at hnext
        rw [hocc]
        linarith
      · rintro ⟨hstill, hmoved⟩
        refine ⟨⟨?_, (Chain.next hadv hchain).deadlineAt⟩, hmoved⟩
        have hocc := (ih.mpr hmoved occ List.mem_cons_self).1
        rw [hadv.runAt, hadv.number, hstill, hocc, Nat.cast_add, Nat.cast_one]
        ring

/-! ## What a call makes of the latest occurrence -/

theorem nextOccurrence_eq {newId : Uuid} {job next : Job} (h : nextOccurrence now newId job interval = some next) :
    next.id = newId ∧ next.runAt = job.runAt + interval * Chrono.nanosPerSecond ∧
      next.deadlineAt = job.deadlineAt.map (· + interval * Chrono.nanosPerSecond) ∧
      next.recurringIntervalSeconds = job.recurringIntervalSeconds := by
  unfold nextOccurrence at h
  cases hr : Chrono.addSeconds job.runAt interval with
  | none => rw [hr] at h; cases h
  | some nextRunAt =>
      rw [hr] at h
      cases hd : job.deadlineAt with
      | none =>
          rw [hd] at h
          cases h
          exact ⟨rfl, Chrono.addSeconds_eq hr, rfl, rfl⟩
      | some deadline =>
          rw [hd] at h
          obtain ⟨d, hadd, rfl⟩ := Option.map_eq_some_iff.mp h
          exact ⟨rfl, Chrono.addSeconds_eq hr, by rw [Chrono.addSeconds_eq hadd, Option.map_some], rfl⟩

/-- No call touches the deadline or the interval of a stored job. -/
theorem JobMove.schedule {op : MemOp} {job job' : Job} (h : JobMove op job job') :
    job'.deadlineAt = job.deadlineAt ∧ job'.recurringIntervalSeconds = job.recurringIntervalSeconds := by
  cases h <;> exact ⟨rfl, rfl⟩

/-- Only a retry moves the `run_at` of a stored job. -/
theorem JobMove.runAt {op : MemOp} {job job' : Job} (h : JobMove op job job') :
    job'.runAt = job.runAt ∨ ∃ now jobId attemptId workerId latencyMs nextRunAt errorCode errorMessage,
      op = .reschedule now jobId attemptId workerId latencyMs nextRunAt errorCode errorMessage := by
  cases h with
  | retry _ _ => exact Or.inr ⟨_, _, _, _, _, _, _, _, rfl⟩
  | _ => exact Or.inl rfl

/-- A retry moves the `run_at` of its job if it is accepted, and nothing else. -/
theorem reschedule_record {jobId attemptId : Uuid} {workerId errorCode errorMessage : String} {latencyMs : Int}
    {nextRunAt : DateTime} (hstep : backendSystem.step s
      (.job (.reschedule now jobId attemptId workerId latencyMs nextRunAt errorCode errorMessage)) s')
    {job : Job} (hget : getJob s id = some job) :
    ∃ job', getJob s' id = some job' ∧ job'.runAt = (retriedAt s id
        (.job (.reschedule now jobId attemptId workerId latencyMs nextRunAt errorCode errorMessage))).getD job.runAt ∧
      job'.deadlineAt = job.deadlineAt ∧ job'.recurringIntervalSeconds = job.recurringIntervalSeconds := by
  obtain ⟨_, happ⟩ := hstep
  simp only [Call.apply, MemOp.apply, retriedAt] at happ ⊢
  rcases rescheduleForRetry_cases s now jobId attemptId workerId latencyMs nextRunAt errorCode errorMessage with
    ⟨_, e, heq⟩ | ⟨stored, att, ⟨hjob, _, _⟩, _, heq⟩
  · rw [heq] at happ ⊢
    cases happ
    exact ⟨job, hget, by simp, rfl, rfl⟩
  · rw [heq] at happ ⊢
    cases happ
    by_cases hid : jobId = id
    · subst hid
      have hsame : stored = job := by simpa [getJob, hjob] using hget
      subst hsame
      exact ⟨{ requeuedJob now stored with runAt := nextRunAt }, by simp [getJob], by simp, rfl, rfl⟩
    · have hne : id ≠ jobId := fun he => hid he.symm
      exact ⟨job, by simpa [getJob, hne] using hget, by simp [hid], rfl, rfl⟩

/-- Only an accepted retry moves the `run_at` of a record; no call touches its deadline or its interval. -/
theorem record_step {call : Call} (hwf : WellFormed s) (hstep : backendSystem.step s call s') {job : Job}
    (hget : getJob s id = some job) :
    ∃ job', getJob s' id = some job' ∧ job'.runAt = (retriedAt s id call).getD job.runAt ∧
      job'.deadlineAt = job.deadlineAt ∧ job'.recurringIntervalSeconds = job.recurringIntervalSeconds := by
  by_cases hres : ∃ now jobId attemptId workerId latencyMs nextRunAt errorCode errorMessage,
      call = .job (.reschedule now jobId attemptId workerId latencyMs nextRunAt errorCode errorMessage)
  · obtain ⟨now, jobId, attemptId, workerId, latencyMs, nextRunAt, errorCode, errorMessage, rfl⟩ := hres
    exact reschedule_record hstep hget
  · have hnone : retriedAt s id call = none := by
      unfold retriedAt
      split
      · exact absurd ⟨_, _, _, _, _, _, _, _, rfl⟩ hres
      · rfl
    rw [hnone, Option.getD_none]
    obtain ⟨job', hget', rfl | ⟨op, rfl, move⟩⟩ := getJob_step hwf hstep hget
    · exact ⟨job', hget', rfl, rfl, rfl⟩
    · refine ⟨job', hget', ?_, move.schedule⟩
      rcases move.runAt with hsame | ⟨_, _, _, _, _, _, _, _, rfl⟩
      · exact hsame
      · exact absurd ⟨_, _, _, _, _, _, _, _, rfl⟩ hres

/-! ## The job a call creates -/

/-- `next` is the next occurrence of a running job. -/
def NextOf (s : InnerState) (newId jobId : Uuid) (next : Job) : Prop :=
  ∃ job now interval, s.jobs jobId = some job ∧ job.status = "running" ∧
    job.recurringIntervalSeconds = some interval ∧ nextOccurrence now newId job interval = some next

/-- What `mark_succeeded` stores under the id it has drawn is the next occurrence of its job. -/
theorem markSucceeded_created {newId jobId attemptId : Uuid} {workerId : String} {latencyMs : Int} {next : Job}
    (hfresh : s.jobs newId = none)
    (hnext : (markSucceeded s now newId jobId attemptId workerId latencyMs).2.jobs newId = some next) :
    NextOf s newId jobId next := by
  rcases markSucceeded_cases s now newId jobId attemptId workerId latencyMs with
    ⟨_, heq⟩ | ⟨_, _, e, heq⟩ | ⟨created, job, att, hrec, ⟨hjob, hst, _⟩, _, heq⟩
  · rw [heq, hfresh] at hnext
    cases hnext
  · rw [heq, hfresh] at hnext
    cases hnext
  · have hne : newId ≠ jobId := by
      rintro rfl
      rw [hfresh] at hjob
      cases hjob
    rw [heq] at hnext
    cases created with
    | none =>
        rw [insertNext, Option.elim_none, InnerState.setJob_jobs, Function.update_of_ne hne,
          InnerState.setAttempt_jobs, hfresh] at hnext
        cases hnext
    | some created =>
        rw [insertNext, Option.elim_some, insertQueued, InnerState.setJob_jobs, (recurringJob_spec hrec).1,
          Function.update_self] at hnext
        cases hnext
        simp only [recurringJob, hjob] at hrec
        cases hi : job.recurringIntervalSeconds with
        | none => simp [hi] at hrec
        | some interval =>
            simp only [hi, Option.map_eq_some_iff, Option.some.injEq, exists_eq_right] at hrec
            exact ⟨job, now, interval, hjob, hst, hi, hrec⟩

/-- A batch leaves an id unused that it has not drawn. -/
theorem batch_unused {workerId : String} (updates : List (DateTime × Uuid × Uuid × Uuid × Int))
    (hnotin : id ∉ updates.map (·.2.1)) (h : Unused s id) :
    Unused (markSucceededBatch workerId updates s).2 id := by
  obtain ⟨_, _, hunused⟩ := markSucceededBatch_keeps
    (I := fun rest t => id ∉ rest.map (·.2.1) ∧ Unused t id) (by
      rintro now newId jobId attemptId latencyMs rest t ⟨hnotin, hj, ha⟩
      rw [List.map_cons, List.mem_cons, not_or] at hnotin
      exact ⟨hnotin.2, markSucceeded_fresh hnotin.1 hj ha jobId attemptId workerId latencyMs⟩) updates s ⟨hnotin, h⟩
  exact hunused

/-- A batch acknowledges running jobs, so a queued job stays as it is. -/
theorem batch_keeps_queued {workerId : String} {id : Uuid} {job next : Job}
    (updates : List (DateTime × Uuid × Uuid × Uuid × Int)) (hfresh : ∀ u ∈ updates, Unused s u.2.1)
    (hjob : s.jobs id = some job) (hq : job.status = "queued")
    (hnext : (markSucceededBatch workerId updates s).2.jobs id = some next) : next = job := by
  cases markSucceededBatch_jobEntry updates hfresh id with
  | stored before after move =>
      rw [hjob] at before
      cases before
      rw [hnext] at after
      cases after
      cases move with
      | keep => rfl
      | succeedBatch hrun => rw [hq] at hrun; exact absurd hrun (by decide)
  | absent before after => rw [hjob] at before; cases before
  | archived before status after kept => rw [hnext] at after; cases after
  | added unused after queued => rw [unused.1] at hjob; cases hjob

/-- A batch: what it stores under an id that an update has drawn is the next occurrence of that update's job. -/
theorem batch_created {workerId : String} {next : Job} (updates : List (DateTime × Uuid × Uuid × Uuid × Int)) :
    ∀ s : InnerState, WellFormed s → (updates.map (·.2.1)).Nodup → (∀ u ∈ updates, Unused s u.2.1) →
      ∀ u ∈ updates, (markSucceededBatch workerId updates s).2.jobs u.2.1 = some next →
        NextOf s u.2.1 u.2.2.1 next := by
  induction updates with
  | nil => intro s _ _ _ u hu; cases hu
  | cons update rest ih =>
      intro s hwf hnd hfresh u hu hnext
      obtain ⟨now, newId, jobId, attemptId, latencyMs⟩ := update
      obtain ⟨hnotin, hnd⟩ := List.nodup_cons.mp hnd
      obtain ⟨hj, ha⟩ := hfresh _ List.mem_cons_self
      rcases markSucceeded_cases s now newId jobId attemptId workerId latencyMs with
        ⟨_, heq⟩ | ⟨_, _, e, heq⟩ | ⟨_, _, _, _, _, _, heq⟩
      · rw [markSucceededBatch, heq, (hfresh u hu).1] at hnext
        cases hnext
      · rw [markSucceededBatch, heq, (hfresh u hu).1] at hnext
        cases hnext
      · obtain ⟨t, ht⟩ : ∃ t, markSucceeded s now newId jobId attemptId workerId latencyMs = (.ok (), t) := ⟨_, heq⟩
        have hwf' : WellFormed t := by
          have h : WellFormed (markSucceeded s now newId jobId attemptId workerId latencyMs).2 :=
            markSucceeded_wellFormed hwf hj ha jobId attemptId workerId latencyMs
          rwa [ht] at h
        have hfresh' : ∀ u ∈ rest, Unused t u.2.1 := by
          have h : ∀ u ∈ rest, Unused (markSucceeded s now newId jobId attemptId workerId latencyMs).2 u.2.1 :=
            markSucceeded_fresh_rest hnotin (fun u hu => hfresh u (List.mem_cons_of_mem _ hu)) jobId attemptId
              workerId latencyMs
          rwa [ht] at h
        rw [markSucceededBatch, ht] at hnext
        rcases List.mem_cons.mp hu with rfl | hrest
        · cases hcreated : t.jobs newId with
          | none =>
              have hunused : Unused t newId := by
                refine ⟨hcreated, ?_⟩
                have h := markSucceeded_archive s now newId jobId attemptId workerId latencyMs
                rw [ht] at h
                rw [h, ha]
              rw [(batch_unused rest hnotin hunused).1] at hnext
              cases hnext
          | some created =>
              have hnextOf : NextOf s newId jobId created := markSucceeded_created hj (by rw [ht]; exact hcreated)
              have hq : created.status = "queued" := by
                obtain ⟨job, _, interval, _, _, _, hnew⟩ := hnextOf
                exact (nextOccurrence_spec hnew).2.1
              -- it is queued, so the rest of the batch leaves it alone
              rw [batch_keeps_queued rest hfresh' hcreated hq hnext]
              exact hnextOf
        · obtain ⟨job, now', interval, hjob, hst, hi, hnew⟩ := ih t hwf' hnd hfresh' u hrest hnext
          refine ⟨job, now', interval, ?_, hst, hi, hnew⟩
          have hentry : JobEntry (.markSucceeded now newId jobId attemptId workerId latencyMs) s
              (markSucceeded s now newId jobId attemptId workerId latencyMs).2 u.2.2.1 :=
            markSucceeded_jobEntry hwf ⟨hj, ha⟩ jobId attemptId workerId latencyMs u.2.2.1
          rw [ht] at hentry
          exact hentry.running_before (neverStarts_markSucceeded _ _ _ _ _) hjob hst

/-- A next occurrence is created from the job as it was when it was acknowledged. -/
theorem nextCreated_spec {call : Call} (hwf : WellFormed s) (hstep : backendSystem.step s call s') {next : Job}
    (hnext : nextCreated id call s' = some next) :
    s'.jobs next.id = some next ∧ ∃ newId, NextOf s newId id next := by
  obtain ⟨newId, hmem, hstored⟩ := List.exists_of_findSome?_eq_some hnext
  have hnextOf : NextOf s newId id next := by
    obtain ⟨hadm, happ⟩ := hstep
    rw [← (Prod.mk.inj happ).2] at hstored
    cases call with
    | stream op => cases hmem
    | job op =>
        cases op with
        | markSucceeded now newId' jobId attemptId workerId latencyMs =>
            simp only [nextIds] at hmem
            split at hmem
            · rename_i hid
              subst hid
              rw [List.mem_singleton.mp hmem] at hstored ⊢
              simp only [MemOp.apply, MemOp.finish_snd] at hstored
              exact markSucceeded_created hadm.1 hstored
            · cases hmem
        | markSucceededBatch updates workerId =>
            obtain ⟨u, hu, rfl⟩ := List.mem_map.mp hmem
            obtain ⟨hu, hid⟩ := List.mem_filter.mp hu
            rw [← of_decide_eq_true hid]
            simp only [MemOp.apply, MemOp.finish_snd] at hstored
            exact batch_created updates s hwf hadm.1 hadm.2 u hu hstored
        | _ => cases hmem
  have hid : next.id = newId := by
    obtain ⟨_, _, _, _, _, _, hnew⟩ := hnextOf
    exact (nextOccurrence_eq hnew).1
  rw [hid]
  exact ⟨hstored, newId, hnextOf⟩

/-- The call that creates the next occurrence is no retry. -/
theorem retriedAt_of_nextCreated {call : Call} {next : Job} (h : nextCreated id call s' = some next) :
    retriedAt s id call = none := by
  unfold retriedAt
  split
  · simp [nextCreated, nextIds] at h
  · rfl

/-! ## A run -/

/-- What holds of a series: it is a chain, and the record of the latest occurrence is as its retries left it. -/
structure Followed (new : NewJob) (interval : Int) (σ : Series) : Prop where
  reachable : backendSystem.Reachable σ.backend
  current : ∃ job, getJob σ.backend σ.latest.id = some job ∧ job.runAt = σ.latest.runAt ∧
    job.deadlineAt = σ.latest.created.deadlineAt ∧ job.recurringIntervalSeconds = some interval
  chain : Chain new interval σ.latest σ.earlier

theorem followed_init (hi : new.recurringIntervalSeconds = some interval) {σ : Series}
    (h : (recurringSystem new).init σ) : Followed new interval σ := by
  obtain ⟨s, now, newId, order, hreach, hfresh, ho, he, hlatest, hearlier⟩ := h
  have hstored : σ.backend.jobs newId = some (newEntity now newId new) := by
    cases hkey : new.idempotencyKey with
    | none =>
        simp only [enqueue, hkey, Option.bind_none, Prod.mk.injEq, true_and] at he
        rw [← he]
        exact Function.update_self ..
    | some key =>
        rcases enqueue_cases now newId (backend_invariants hreach).1 ho hkey with ⟨existing, hold, hjob, _⟩ | ⟨_, hadd⟩
        · -- an id that was returned for a stored job was not unused
          rw [hold, Prod.mk.injEq, Outcome.ok.injEq] at he
          rw [he.1, hfresh.1] at hjob
          cases hjob
        · rw [hadd, Prod.mk.injEq] at he
          rw [← he.2]
          exact Function.update_self ..
  refine ⟨hreach.next (i := .job (.enqueue now newId order new)) ⟨⟨hfresh, ho⟩, ?_⟩, ?_, ?_⟩
  · simp only [Call.apply, MemOp.apply, he]
    rfl
  · rw [hlatest]
    exact ⟨_, getJob_eq_some.mpr (Or.inl hstored), rfl, rfl, hi⟩
  · rw [hlatest, hearlier]
    exact .first rfl rfl rfl

theorem followed_step {σ σ' : Series} {call : Call} (h : Followed new interval σ)
    (hstep : (recurringSystem new).step σ call σ') : Followed new interval σ' := by
  obtain ⟨s', hstep, rfl⟩ := hstep
  obtain ⟨job, hget, hrun, hdeadline, hi⟩ := h.current
  have hwf := (backend_invariants h.reachable).1
  obtain ⟨job', hget', hrun', hdeadline', hi'⟩ := record_step hwf hstep hget
  have hmoved : job'.runAt = ((retriedAt σ.backend σ.latest.id call).or σ.latest.retry).getD
      σ.latest.created.runAt := by
    rw [hrun', hrun, Occurrence.runAt]
    cases retriedAt σ.backend σ.latest.id call <;> simp
  unfold Series.follow
  cases hnext : nextCreated σ.latest.id call s' with
  | none =>
      exact ⟨h.reachable.next hstep, ⟨job', hget', hmoved, hdeadline'.trans hdeadline, hi'.trans hi⟩,
        h.chain.retried _⟩
  | some next =>
      obtain ⟨hstored, newId, job₀, now, interval₀, hjob₀, _, hi₀, hnew⟩ := nextCreated_spec hwf hstep hnext
      -- the job that was acknowledged is the record of the latest occurrence
      rw [getJob, hjob₀, Option.some_or, Option.some.injEq] at hget
      subst hget
      rw [hi] at hi₀
      cases hi₀
      obtain ⟨_, hnextRun, hnextDeadline, hnextInterval⟩ := nextOccurrence_eq hnew
      refine ⟨h.reachable.next hstep, ⟨next, getJob_eq_some.mpr (Or.inl hstored), rfl, rfl, hnextInterval.trans hi⟩,
        .next ⟨rfl, ?_, ?_⟩ (h.chain.retried _)⟩
      · rw [retriedAt_of_nextCreated hnext, Option.none_or, hnextRun, hrun]
      · rw [hnextDeadline, hdeadline]

/-- **The schedule of a recurring job.** In every state of every run: the occurrences that acknowledgements have
    created were all created with the `run_at` and the deadline of their place in the schedule, if and only if no
    occurrence that was acknowledged had been left by its last retry with another `run_at` than the one it was created
    with. -/
theorem recurrence_iff (hi : new.recurringIntervalSeconds = some interval) {σ : Series}
    (h : (recurringSystem new).Reachable σ) :
    (∀ occ ∈ σ.latest :: σ.earlier, OnSchedule new interval occ) ↔
      ∀ occ ∈ σ.earlier, occ.runAt = occ.created.runAt := by
  have hfollowed : Followed new interval σ :=
    h.invariant (fun _ hinit => followed_init hi hinit) fun _ _ _ _ hinv hstep => followed_step hinv hstep
  exact hfollowed.chain.onSchedule_iff

/-! ## Two runs -/

/-- The series after one more call. -/
def Series.take (σ : Series) (call : Call) : Series := σ.follow call (call.apply σ.backend).2

theorem reachable_take {σ : Series} {call : Call} (h : (recurringSystem new).Reachable σ)
    (hadm : call.Admissible σ.backend) (hret : (call.apply σ.backend).1 = true) :
    (recurringSystem new).Reachable (σ.take call) :=
  h.next ⟨_, ⟨hadm, Prod.ext hret rfl⟩, rfl⟩

/-- A report that is due at 0 and then every hour, with ten minutes to start. -/
def hourlyReport : NewJob :=
  { welcomeEmail with recurringIntervalSeconds := some 3600, deadlineAt := some 600000000000 }

/-- The report is enqueued, leased and started. -/
def firstReport : Series :=
  (Series.take { backend := (enqueue InnerState.init 0 7 [] hourlyReport).2
                 latest := { number := 0, id := 7, created := newEntity 0 7 hourlyReport, retry := none }
                 earlier := [] }
    (.job (.lease 5 "emails" "w1" 30 10 .fifo))).take (.job (.startAttempts 6 [(7, 9)] "w1"))

theorem firstReport_reachable : (recurringSystem hourlyReport).Reachable firstReport :=
  reachable_take (reachable_take
    (.start ⟨InnerState.init, 0, 7, [], .start rfl, ⟨rfl, rfl⟩, enumerates_nil, rfl, rfl, rfl⟩) trivial (by decide))
    ⟨by decide, by decide⟩ (by decide)

/-- It succeeds at once: the second report is due at an hour. -/
theorem recurrence_iff_at_once :
    (firstReport.take (.job (.markSucceeded 7 8 7 9 "w1" 5))).latest.number = 1 ∧
      OnSchedule hourlyReport 3600 (firstReport.take (.job (.markSucceeded 7 8 7 9 "w1" 5))).latest := by
  have hreach : (recurringSystem hourlyReport).Reachable (firstReport.take (.job (.markSucceeded 7 8 7 9 "w1" 5))) :=
    reachable_take firstReport_reachable ⟨by decide, by decide⟩ (by decide)
  exact ⟨by decide, (recurrence_iff rfl hreach).mpr (by decide) _ List.mem_cons_self⟩

/-- It fails and is retried at five seconds: the second report is due at an hour and five seconds, and its deadline is
    at an hour and ten minutes. -/
theorem retry_moves_schedule :
    let σ := (((firstReport.take (.job (.reschedule 7 7 9 "w1" 5 5000000000 "TIMEOUT" "slow"))).take
      (.job (.lease 6000000000 "emails" "w1" 30 10 .fifo))).take (.job (.startAttempts 6000000001 [(7, 10)] "w1"))).take
        (.job (.markSucceeded 7000000000 8 7 10 "w1" 5))
    (recurringSystem hourlyReport).Reachable σ ∧ σ.latest.number = 1 ∧ σ.latest.created.runAt = 3605000000000 ∧
      σ.latest.created.deadlineAt = some 4200000000000 ∧
      ¬∀ occ ∈ σ.latest :: σ.earlier, OnSchedule hourlyReport 3600 occ := by
  intro σ
  have hrun : σ.latest.created.runAt = 3605000000000 := by decide
  have hnumber : σ.latest.number = 1 := by decide
  refine ⟨?_, hnumber, hrun, by decide, ?_⟩
  · exact reachable_take (reachable_take (reachable_take (reachable_take firstReport_reachable trivial (by decide))
      trivial (by decide)) ⟨by decide, by decide⟩ (by decide)) ⟨by decide, by decide⟩ (by decide)
  · intro hall
    have hsched := (hall σ.latest List.mem_cons_self).1
    rw [hrun, hnumber] at hsched
    exact absurd hsched (by decide)

end Azums.Memory
