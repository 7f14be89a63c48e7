import Azums.Lib.Loop
import Azums.Memory.Leasing
import Azums.Quickstart.Records
import Azums.Quickstart.RetryBudget

/-!
# `Quickstart.Drain` — `run_until_empty` comes to an end

`run_until_empty` leases and processes batches until a lease comes back empty. A failed job goes back into the queue it
was leased from, so nothing in the loop itself says that there is a last round. What ends it is the retry budget:
`handle_failure` puts a job back only while its attempt number is below `max_attempts`, and every lease costs an attempt.
`workLeft` is the number of leases that the queued jobs of a queue can still take, and every round that goes on lowers it
by the size of its batch.

`run_until_empty_ends` says so for every mix of handler outcomes, timeouts, delays and clocks, and that the queue has no
due job when the loop returns `Ok`. Nobody else may put work into the queue meanwhile, and none of its jobs may recur: the
next occurrence of a job has a budget of its own.
-/

namespace Azums.Quickstart

open Azums.Memory
open Function (update)

variable {s t u : InnerState} {queue : String}

/-! ## What is left to do -/

/-- No job of the queue recurs. -/
def Once (queue : String) (s : InnerState) : Prop :=
  ∀ id job, s.jobs id = some job → job.queue = queue → job.recurringIntervalSeconds = none

/-- How many leases a queued job can still take: one more, or as many as it has attempts left. -/
def leasesLeft (s : InnerState) (id : Uuid) : Nat :=
  max 1 ((s.jobs id).elim 0 (fun job => (job.maxAttempts - attemptCount s id).toNat))

/-- The ids in the index of a queue. -/
def queuedIds (s : InnerState) (queue : String) : Finset Uuid := ((s.index queue).toList.map (·.id)).toFinset

/-- How many leases the queued jobs of a queue can still take together. -/
def workLeft (s : InnerState) (queue : String) : Nat := ∑ id ∈ queuedIds s queue, leasesLeft s id

theorem mem_queuedIds (h : WellFormed s) {id : Uuid} :
    id ∈ queuedIds s queue ↔ ∃ job, s.jobs id = some job ∧ job.queue = queue ∧ job.status = "queued" := by
  rw [queuedIds, List.mem_toFinset, List.mem_map]
  constructor
  · rintro ⟨entry, hentry, rfl⟩
    obtain ⟨job, hjob, _, hqueue, hst, _⟩ := h.job_of_mem hentry
    exact ⟨job, hjob, hqueue, hst⟩
  · rintro ⟨job, hjob, hqueue, hst⟩
    have hid : job.id = id := h.jobId id job hjob
    subst hid
    exact ⟨QueueEntry.fromJob job, (h.indexed queue _).mpr ⟨job, hjob, hqueue, hst, rfl⟩, rfl⟩

/-! ## Nothing is added

`Drains` compares two states of a run: no job of the queue is new, a queued one was queued before, and if it was leased
in between, an attempt of it has been counted and another one is left. -/

/-- From `s` to `t` no work came into the queue, and what was put back of the jobs `taken` has used up an attempt. -/
structure Drains (queue : String) (taken : Uuid → Prop) (s t : InnerState) : Prop where
  origin : ∀ id job', t.jobs id = some job' → job'.queue = queue →
    ∃ job, s.jobs id = some job ∧ job.queue = queue ∧ job'.maxAttempts = job.maxAttempts ∧
      job'.recurringIntervalSeconds = job.recurringIntervalSeconds ∧
      (job'.status = "queued" → job.status = "queued" ∧
        (taken id → attemptCount s id < attemptCount t id ∧ attemptCount s id + 1 < job.maxAttempts))
  stays : ∀ id job, s.jobs id = some job →
    (∃ job', t.jobs id = some job' ∧ job'.queue = job.queue) ∨ (t.archive id).isSome
  archive : ∀ id, (s.archive id).isSome → (t.archive id).isSome
  counts : ∀ id, attemptCount s id ≤ attemptCount t id

namespace Drains

variable {taken taken' : Uuid → Prop}

theorem refl (queue : String) (s : InnerState) : Drains queue (fun _ => False) s s where
  origin := fun _ job' hjob hqueue => ⟨job', hjob, hqueue, rfl, rfl, fun hst => ⟨hst, False.elim⟩⟩
  stays := fun _ job hjob => Or.inl ⟨job, hjob, rfl⟩
  archive := fun _ h => h
  counts := fun _ => le_refl _

/-- What is queued at the end was queued all the time, and attempt counters never fall. -/
theorem trans (h : Drains queue taken s t) (h' : Drains queue taken' t u) :
    Drains queue (fun id => taken id ∨ taken' id) s u where
  origin := by
    intro id job' hjob' hqueue'
    obtain ⟨mid, hmid, hmidq, hmax', hrec', hqueued'⟩ := h'.origin id job' hjob' hqueue'
    obtain ⟨job, hjob, hqueue, hmax, hrec, hqueued⟩ := h.origin id mid hmid hmidq
    refine ⟨job, hjob, hqueue, hmax'.trans hmax, hrec'.trans hrec, fun hst => ?_⟩
    obtain ⟨hst₁, hspent₁⟩ := hqueued' hst
    obtain ⟨hst₀, hspent₀⟩ := hqueued hst₁
    refine ⟨hst₀, ?_⟩
    have hle := h.counts id
    have hle' := h'.counts id
    rintro (ht | ht')
    · have hspent := hspent₀ ht
      omega
    · have hspent := hspent₁ ht'
      omega
  stays := by
    intro id job hjob
    rcases h.stays id job hjob with ⟨mid, hmid, hqueue⟩ | harch
    · rcases h'.stays id mid hmid with ⟨job', hjob', hqueue'⟩ | harch
      · exact Or.inl ⟨job', hjob', hqueue'.trans hqueue⟩
      · exact Or.inr harch
    · exact Or.inr (h'.archive id harch)
  archive := fun id hs => h'.archive id (h.archive id hs)
  counts := fun id => (h.counts id).trans (h'.counts id)

/-- Where nobody else took a job, the jobs taken are the same. -/
theorem quiet (h : Drains queue taken s t) (h' : Drains queue (fun _ => False) t u) : Drains queue taken s u := by
  have hall := h.trans h'
  simp only [or_false] at hall
  exact hall

/-- Jobs that are not queued may count as taken. -/
theorem take (h : Drains queue (fun _ => False) s t)
    (hout : ∀ id job, taken id → t.jobs id = some job → job.status ≠ "queued") : Drains queue taken s t where
  origin := by
    intro id job' hjob' hqueue'
    obtain ⟨job, hjob, hqueue, hmax, hrec, hqueued⟩ := h.origin id job' hjob' hqueue'
    exact ⟨job, hjob, hqueue, hmax, hrec, fun hst => ⟨(hqueued hst).1, fun hid => absurd hst (hout id job' hid hjob')⟩⟩
  stays := h.stays
  archive := h.archive
  counts := h.counts

/-- A job that is stored at both ends has kept its queue. -/
theorem same_queue (h : Drains queue taken s t) (ht : WellFormed t) {id : Uuid} {job job' : Job}
    (hjob : s.jobs id = some job) (hjob' : t.jobs id = some job') : job'.queue = job.queue := by
  rcases h.stays id job hjob with ⟨stored, hstored, hqueue⟩ | harch
  · rw [hjob'] at hstored
    cases hstored
    exact hqueue
  · obtain ⟨archived, harch⟩ := Option.isSome_iff_exists.mp harch
    obtain ⟨_, _, _, hnone⟩ := ht.archived id archived harch
    rw [hjob'] at hnone
    cases hnone

theorem once (h : Drains queue taken s t) (hs : Once queue s) : Once queue t := by
  intro id job' hjob' hqueue'
  obtain ⟨job, hjob, hqueue, _, hrec, _⟩ := h.origin id job' hjob' hqueue'
  rw [hrec]
  exact hs id job hjob hqueue

/-- **The rank falls** by as many jobs as were taken. -/
theorem work_le (h : Drains queue taken s t) (hs : WellFormed s) (ht : WellFormed t) {worked : Finset Uuid}
    (hworked : worked ⊆ queuedIds s queue) (htaken : ∀ id ∈ worked, taken id) :
    workLeft t queue + worked.card ≤ workLeft s queue := by
  have hmove : ∀ id ∈ queuedIds t queue, ∃ job job', s.jobs id = some job ∧ t.jobs id = some job' ∧
      job.queue = queue ∧ job.status = "queued" ∧ job'.maxAttempts = job.maxAttempts ∧
      (taken id → attemptCount s id < attemptCount t id ∧ attemptCount s id + 1 < job.maxAttempts) := by
    intro id hid
    obtain ⟨job', hjob', hqueue', hst'⟩ := (mem_queuedIds ht).mp hid
    obtain ⟨job, hjob, hqueue, hmax, _, hqueued⟩ := h.origin id job' hjob' hqueue'
    exact ⟨job, job', hjob, hjob', hqueue, (hqueued hst').1, hmax, (hqueued hst').2⟩
  refine sum_spend ?_ hworked (fun id _ => Nat.le_max_left _ _) ?_ ?_
  · intro id hid
    obtain ⟨job, _, hjob, _, hqueue, hst, _⟩ := hmove id hid
    exact (mem_queuedIds hs).mpr ⟨job, hjob, hqueue, hst⟩
  · intro id hid
    obtain ⟨job, job', hjob, hjob', _, _, hmax, _⟩ := hmove id hid
    have hle := h.counts id
    simp only [leasesLeft, hjob, hjob', Option.elim_some, hmax]
    omega
  · intro id hid hw
    obtain ⟨job, job', hjob, hjob', _, _, hmax, hspent⟩ := hmove id hid
    obtain ⟨hlt, hspare⟩ := hspent (htaken id hw)
    simp only [leasesLeft, hjob, hjob', Option.elim_some, hmax]
    omega

/-- One stored job is written, and nothing else. If it is queued now, it is one that may be. -/
theorem write (h : Drains queue taken s t) {id : Uuid} {job job' : Job} (hjob : t.jobs id = some job)
    (hjobs : u.jobs = update t.jobs id (some job')) (harchive : u.archive = t.archive)
    (hcounts : u.attemptCounts = t.attemptCounts) (hqueue : job'.queue = job.queue)
    (hmax : job'.maxAttempts = job.maxAttempts)
    (hrec : job'.recurringIntervalSeconds = job.recurringIntervalSeconds)
    (hqueued : job'.status = "queued" → ∀ before, s.jobs id = some before → before.status = "queued" ∧
      attemptCount s id < attemptCount t id ∧ attemptCount s id + 1 < before.maxAttempts) :
    Drains queue taken s u where
  origin := by
    intro i j hj hjq
    have hcount : attemptCount u i = attemptCount t i := by rw [attemptCount, attemptCount, hcounts]
    rw [hjobs] at hj
    rcases update_eq_some hj with ⟨rfl, rfl⟩ | ⟨_, hold⟩
    · obtain ⟨before, hbefore, hq, hm, hr, _⟩ := h.origin i job hjob (hqueue ▸ hjq)
      refine ⟨before, hbefore, hq, hmax.trans hm, hrec.trans hr, fun hst => ?_⟩
      obtain ⟨hst₀, hspent⟩ := hqueued hst before hbefore
      exact ⟨hst₀, fun _ => by rw [hcount]; exact hspent⟩
    · rw [hcount]
      exact h.origin i j hold hjq
  stays := by
    intro i before hbefore
    rw [harchive, hjobs]
    rcases h.stays i before hbefore with ⟨j, hj, hjq⟩ | harch
    · by_cases hi : i = id
      · subst hi
        rw [hjob] at hj
        cases hj
        exact Or.inl ⟨job', Function.update_self .., hqueue.trans hjq⟩
      · exact Or.inl ⟨j, by rw [Function.update_of_ne hi, hj], hjq⟩
    · exact Or.inr harch
  archive := fun i hi => by rw [harchive]; exact h.archive i hi
  counts := fun i => by
    have hcount : attemptCount u i = attemptCount t i := by rw [attemptCount, attemptCount, hcounts]
    rw [hcount]
    exact h.counts i

end Drains

/-- Every stored job is changed in place, if at all, and none is queued that was not. -/
theorem drains_of_map {f : Uuid → Job → Job} (hjobs : ∀ id, t.jobs id = (s.jobs id).map (f id))
    (harchive : t.archive = s.archive) (hcounts : ∀ id, attemptCount s id ≤ attemptCount t id)
    (hf : ∀ id job, (f id job).queue = job.queue ∧ (f id job).maxAttempts = job.maxAttempts ∧
      (f id job).recurringIntervalSeconds = job.recurringIntervalSeconds ∧
      ((f id job).status = "queued" → job.status = "queued")) : Drains queue (fun _ => False) s t where
  origin := by
    intro id job' hjob' hqueue'
    rw [hjobs, Option.map_eq_some_iff] at hjob'
    obtain ⟨job, hjob, rfl⟩ := hjob'
    obtain ⟨hqueue, hmax, hrec, hst⟩ := hf id job
    exact ⟨job, hjob, hqueue ▸ hqueue', hmax, hrec, fun h => ⟨hst h, False.elim⟩⟩
  stays := fun id job hjob => Or.inl ⟨f id job, by rw [hjobs, hjob, Option.map_some], (hf id job).1⟩
  archive := fun id h => by rw [harchive]; exact h
  counts := hcounts

/-! ### The calls of a round -/

section Calls

variable {now : DateTime}

/-- A lease of any queue. -/
theorem lease_drains {leased workerId : String} {leaseSeconds batchSize : Int} {ordering : QueueOrdering}
    (hp : (leaseJobsBatchWithOrdering s now leased workerId leaseSeconds batchSize ordering).1 ≠ .panic) :
    Drains queue (fun _ => False) s
      (leaseJobsBatchWithOrdering s now leased workerId leaseSeconds batchSize ordering).2 := by
  obtain ⟨expires, _, hjobs, honly⟩ := lease_jobs leased workerId leaseSeconds batchSize ordering hp
  refine drains_of_map (f := fun id job =>
    (if id ∈ (candidates (sweepDeadlines s now leased) now leased batchSize).map (·.id)
      then leasedJob now expires workerId else fun job => job)
      ((if id ∈ (expiredDeadlines s now leased).map (·.id) then deadlineExceeded now else fun job => job) job))
    ?_ honly.archive ?_ ?_
  · intro id
    rw [hjobs, mapAt, mapAt]
    split <;> split <;> simp [Option.map_map, Function.comp_def]
  · intro id
    rw [attemptCount, attemptCount, honly.attemptCounts]
  · intro id job
    split <;> split <;> simp [leasedJob, deadlineExceeded, JobStatus.asStr]

/-- The heartbeat. -/
theorem extendLease_drains (jobId : Uuid) (workerId : String) (leaseSeconds : Int) :
    Drains queue (fun _ => False) s (extendLease s now jobId workerId leaseSeconds).2 := by
  unfold extendLease
  cases hjob : s.jobs jobId with
  | none => exact .refl queue s
  | some job =>
      simp only
      split
      · rename_i hheld
        cases Chrono.addSeconds now leaseSeconds with
        | none => exact .refl queue s
        | some expires =>
            refine (Drains.refl queue s).write hjob rfl rfl rfl rfl rfl rfl fun hst => ?_
            rw [show ({ job with lockExpiresAt := some expires, updatedAt := now } : Job).status = job.status from rfl,
              hheld.1] at hst
            exact absurd hst (by decide)
      · exact .refl queue s

/-- A `start_attempts_batch` that returns `Ok` counts one attempt for each job, and answers with the new counter. -/
theorem startEach_ok_counts {workerId : String} (requests : List (Uuid × Uuid)) :
    ∀ (s : InnerState) {started : List (Uuid × Uuid × Int)}, (requests.map (·.1)).Nodup →
      startEach now workerId requests s = (.ok started, t) →
      (∀ id, attemptCount t id = if id ∈ requests.map (·.1) then attemptCount s id + 1 else attemptCount s id) ∧
        ∀ answer ∈ started, answer.1 ∈ requests.map (·.1) ∧ answer.2.2 = attemptCount s answer.1 + 1 := by
  induction requests with
  | nil =>
      intro s started _ h
      cases h
      simp
  | cons request rest ih =>
      intro s started hnd h
      obtain ⟨jobId, attemptId⟩ := request
      obtain ⟨hnotin, hnd⟩ := List.nodup_cons.mp hnd
      by_cases hl : Memory.Startable s workerId jobId
      · rw [startEach_cons now attemptId rest hl] at h
        obtain ⟨results, hrest, rfl⟩ := prependAttempt_ok h
        obtain ⟨hcounts, hanswers⟩ := ih _ hnd hrest
        have hrecord := recordAttempt_count s now workerId jobId attemptId ((s.attemptCounts jobId).getD 0 + 1)
        have hthis : (s.attemptCounts jobId).getD 0 = attemptCount s jobId := rfl
        simp only [hthis] at hcounts hanswers hrecord ⊢
        refine ⟨fun id => ?_, fun answer ha => ?_⟩
        · simp only [hcounts, hrecord, List.map_cons, List.mem_cons]
          by_cases hid : id = jobId
          · subst hid
            rw [if_neg hnotin, if_pos rfl, if_pos (Or.inl rfl)]
          · simp only [hid, false_or, if_false]
        · rcases List.mem_cons.mp ha with rfl | ha
          · exact ⟨List.mem_cons_self, rfl⟩
          · obtain ⟨hin, hno⟩ := hanswers answer ha
            have hne : answer.1 ≠ jobId := fun he => hnotin (he ▸ hin)
            rw [hrecord, if_neg hne] at hno
            exact ⟨List.mem_cons_of_mem _ hin, hno⟩
      · obtain ⟨_, hm, hno⟩ := startEach_stops now attemptId rest hl
        rw [hm] at h
        exact absurd (congrArg Prod.fst h) (hno started)

/-- What `attempts_map` holds was answered. -/
theorem attemptsMap_some {started : List (Uuid × Uuid × Int)} {id : Uuid} {v : Uuid × Int}
    (h : attemptsMap started id = some v) : (id, v) ∈ started := by
  have hfold : ∀ (l : List (Uuid × Uuid × Int)) (m : Uuid → Option (Uuid × Int)),
      l.foldl (fun m (a : Uuid × Uuid × Int) => update m a.1 (some (a.2.1, a.2.2))) m id = some v →
      (id, v) ∈ l ∨ m id = some v := by
    intro l
    induction l with
    | nil => intro m hm; exact Or.inr hm
    | cons a rest ih =>
        intro m hm
        rcases ih _ hm with hin | hupd
        · exact Or.inl (List.mem_cons_of_mem _ hin)
        · rcases update_eq_some hupd with ⟨rfl, rfl⟩ | ⟨_, hold⟩
          · exact Or.inl List.mem_cons_self
          · exact Or.inr hold
  rcases hfold started _ h with hin | hnone
  · exact hin
  · cases hnone

/-- **The end of a job.** It is settled, or put back with an attempt counted and another one left. -/
theorem Ending.drains {taken : Uuid → Prop} {newId jobId attemptId : Uuid} {workerId : String}
    {latencyMs attemptNo : Int} {before : Job} {r : Outcome Unit × InnerState} (h : Drains queue taken s t)
    (ht : WellFormed t) (hs : Once queue s) (hbefore : s.jobs jobId = some before) (hqueue : before.queue = queue)
    (hst : before.status = "queued") (hno : attemptCount s jobId < attemptNo ∧ attemptNo ≤ attemptCount t jobId)
    (hend : Ending t now newId jobId attemptId workerId latencyMs (attemptNo < before.maxAttempts) r)
    (hok : r.1 = .ok ()) :
    WellFormed r.2 ∧ Drains queue taken s r.2 ∧ ∀ id, attemptCount r.2 id = attemptCount t id := by
  cases hend with
  | succeeded =>
      rcases markSucceeded_cases t now newId jobId attemptId workerId latencyMs with
        ⟨_, heq⟩ | ⟨_, _, e, heq⟩ | ⟨next, job, att, hrec, ⟨hjob, hrun, _⟩, _, heq⟩
      · rw [heq] at hok; cases hok
      · rw [heq] at hok; cases hok
      · -- the job is still in its queue, so it does not recur
        have honce := h.once hs jobId job hjob ((h.same_queue ht hbefore hjob).trans hqueue)
        simp only [recurringJob, hjob, honce, Option.some.injEq] at hrec
        subst hrec
        rw [heq]
        refine ⟨?_, ?_, fun _ => rfl⟩
        · have hid : (completedJob now job).id = jobId := ht.jobId jobId job hjob
          exact (ht.setAttempt _ _).setJob hjob (by simp [hrun]) hid
            (jobOk_completedJob (ht.jobOk _ _ hjob) hrun) (by simp [completedJob, JobStatus.asStr])
        · exact h.write hjob rfl rfl rfl rfl rfl rfl fun hq => absurd hq (by simp [completedJob, JobStatus.asStr])
  | dead =>
      rename_i reasonCode errorCode errorMessage
      have hwf : WellFormed (markDlq t now jobId attemptId workerId latencyMs reasonCode errorCode errorMessage).2 :=
        markDlq_wellFormed ht jobId attemptId workerId latencyMs reasonCode errorCode errorMessage
      rcases markDlq_cases t now jobId attemptId workerId latencyMs reasonCode errorCode errorMessage with
        ⟨_, e, heq⟩ | ⟨job, att, ⟨hjob, _⟩, _, heq⟩
      · rw [heq] at hok; cases hok
      · rw [heq] at hwf ⊢
        refine ⟨hwf, ?_, fun _ => rfl⟩
        exact h.write hjob rfl rfl rfl rfl rfl rfl fun hq => absurd hq (by simp [deadLetteredJob, JobStatus.asStr])
  | retried hspare =>
      rename_i nextRunAt errorCode errorMessage
      have hwf : WellFormed
          (rescheduleForRetry t now jobId attemptId workerId latencyMs nextRunAt errorCode errorMessage).2 :=
        rescheduleForRetry_wellFormed ht jobId attemptId workerId latencyMs nextRunAt errorCode errorMessage
      rcases rescheduleForRetry_cases t now jobId attemptId workerId latencyMs nextRunAt errorCode errorMessage with
        ⟨_, e, heq⟩ | ⟨job, att, ⟨hjob, _⟩, _, heq⟩
      · rw [heq] at hok; cases hok
      · rw [heq] at hwf ⊢
        refine ⟨hwf, ?_, fun _ => rfl⟩
        refine h.write hjob rfl rfl rfl rfl rfl rfl fun _ stored hstored => ?_
        rw [hbefore] at hstored
        cases hstored
        exact ⟨hst, by omega, by omega⟩

end Calls

/-! ## The rounds -/

/-- Nobody else puts work into the queue. -/
def AddsNoWork (queue : String) (meanwhile : InnerState → InnerState) : Prop :=
  ∀ s, WellFormed s → WellFormed (meanwhile s) ∧ Drains queue (fun _ => False) s (meanwhile s)

/-- Nobody else puts work into the queue during a round. -/
structure QuietRound (queue : String) (round : RoundEnv) : Prop where
  beforeLease : AddsNoWork queue round.beforeLease
  beforeStart : AddsNoWork queue round.batch.beforeStart
  meanwhile : ∀ id, AddsNoWork queue (round.batch.job id).meanwhile

/-- Jobs that were queued in `s`, as they were leased. -/
def TakenFrom (queue : String) (s : InnerState) (jobs : List Job) : Prop :=
  ∀ job ∈ jobs, ∃ before, s.jobs job.id = some before ∧ before.queue = queue ∧ before.status = "queued" ∧
    before.maxAttempts = job.maxAttempts

section Rounds

variable {flow : Flow} {taken : Uuid → Prop}

/-- **The loop of `process_batch`**, by induction on the jobs still to be processed. -/
theorem processJobs_drains {env : Uuid → JobEnv} (hquiet : ∀ id, AddsNoWork queue (env id).meanwhile)
    (hs : Once queue s) (rest : List Job) : ∀ (attempts : Uuid → Option (Uuid × Int)) (t : InnerState) {u : InnerState},
      WellFormed t → Drains queue taken s t → TakenFrom queue s rest →
      (∀ id attemptId attemptNo, attempts id = some (attemptId, attemptNo) →
        attemptCount s id < attemptNo ∧ attemptNo ≤ attemptCount t id) →
      processJobs flow env rest attempts t = (.ok (), u) → WellFormed u ∧ Drains queue taken s u := by
  induction rest with
  | nil =>
      intro attempts t u ht h _ _ hret
      cases hret
      exact ⟨ht, h⟩
  | cons job rest ih =>
      intro attempts t u ht h hfrom hno hret
      have hfrom' : TakenFrom queue s rest := fun j hj => hfrom j (List.mem_cons_of_mem _ hj)
      unfold processJobs at hret
      cases hans : attempts job.id with
      | none =>
          rw [hans] at hret
          exact ih attempts t ht h hfrom' hno hret
      | some answer =>
          obtain ⟨attemptId, attemptNo⟩ := answer
          rw [hans] at hret
          simp only at hret
          obtain ⟨hwf₁, hd₁⟩ := hquiet job.id t ht
          obtain ⟨before, hbefore, hqueue, hst, hmax⟩ := hfrom job List.mem_cons_self
          obtain ⟨hlt, hle⟩ := hno job.id attemptId attemptNo hans
          have hcount := hd₁.counts job.id
          -- both branches end the job with one acknowledgement
          have hdone : ∀ r, r = finishJob flow (env job.id) ((env job.id).meanwhile t) job attemptId attemptNo →
              r.1 = .ok () → WellFormed r.2 ∧ Drains queue taken s r.2 ∧
                ∀ id, attemptCount r.2 id = attemptCount ((env job.id).meanwhile t) id := by
            rintro r rfl hok
            have hend := finishJob_ending flow (env job.id) ((env job.id).meanwhile t) job attemptId attemptNo
              (by rw [hok]; simp)
            rw [← hmax] at hend
            exact hend.drains (h.quiet hd₁) hwf₁ hs hbefore hqueue hst ⟨hlt, by omega⟩ hok
          by_cases htime : timesOut flow (env job.id) job = true
          · rw [if_pos htime] at hret
            obtain ⟨hwf₂, hd₂, _⟩ := hdone (.ok (), u) (by rw [finishJob, if_pos htime, hret]) rfl
            exact ⟨hwf₂, hd₂⟩
          · rw [if_neg htime] at hret
            cases hout : recordOutcome flow (env job.id) ((env job.id).meanwhile t) job attemptId attemptNo with
            | mk outcome t₂ =>
                rw [hout] at hret
                cases outcome with
                | err message => cases hret
                | panic => cases hret
                | ok _ =>
                    obtain ⟨hwf₂, hd₂, hcounts⟩ := hdone (.ok (), t₂) (by rw [finishJob, if_neg htime, hout]) rfl
                    refine ih _ t₂ hwf₂ hd₂ hfrom' ?_ hret
                    intro id a n hid
                    have hne : id ≠ job.id := by
                      rintro rfl
                      rw [Function.update_self] at hid
                      cases hid
                    rw [Function.update_of_ne hne] at hid
                    obtain ⟨hlt', hle'⟩ := hno id a n hid
                    have hmono := hd₁.counts id
                    rw [hcounts]
                    exact ⟨hlt', by omega⟩

/-- **A batch.** What is put back of its jobs has used up an attempt. -/
theorem processBatch_drains {env : BatchEnv} {batch : List Job} (hbefore : AddsNoWork queue env.beforeStart)
    (hquiet : ∀ id, AddsNoWork queue (env.job id).meanwhile) (hs : Once queue s) (ht : WellFormed t)
    (h : Drains queue (fun _ => False) s t) (hnd : (batch.map (·.id)).Nodup)
    (hleased : ∀ job ∈ batch, t.jobs job.id = some job ∧ job.status = "running") (hfrom : TakenFrom queue s batch)
    (hret : processBatch flow env batch t = (.ok (), u)) :
    WellFormed u ∧ Drains queue (fun id => id ∈ batch.map (·.id)) s u := by
  obtain ⟨hwf₁, hd₁⟩ := hbefore t ht
  unfold processBatch at hret
  cases hstart : startBatch flow env batch t with
  | mk outcome t₂ =>
      rw [hstart] at hret
      cases outcome with
      | err message => cases hret
      | panic => cases hret
      | ok started =>
          have hrequests : (batch.map (fun job => (job.id, (env.job job.id).attemptId))).map (·.1) =
              batch.map (·.id) := by rw [List.map_map]; rfl
          obtain ⟨hcounts, hanswers⟩ := startEach_ok_counts _ (env.beforeStart t) (hrequests ▸ hnd) hstart
          rw [hrequests] at hanswers
          simp only [hrequests] at hcounts
          obtain ⟨hjobs, hqueued, harchive⟩ : t₂.jobs = (env.beforeStart t).jobs ∧
              t₂.queuedJobs = (env.beforeStart t).queuedJobs ∧ t₂.archive = (env.beforeStart t).archive := by
            have hframe := @startEach_frame env.startNow flow.workerId
              (batch.map (fun job => (job.id, (env.job job.id).attemptId))) (env.beforeStart t)
            have heq : startEach env.startNow flow.workerId
                (batch.map (fun job => (job.id, (env.job job.id).attemptId))) (env.beforeStart t) =
                  (.ok started, t₂) := hstart
            rwa [heq] at hframe
          have hd₂ : Drains queue (fun _ => False) (env.beforeStart t) t₂ := by
            refine drains_of_map (f := fun _ job => job) (fun id => by rw [hjobs, Option.map_id']) harchive
              (fun id => ?_) fun id job => ⟨rfl, rfl, rfl, fun h => h⟩
            rw [hcounts]
            split <;> omega
          have htaken : Drains queue (fun id => id ∈ batch.map (·.id)) s t := by
            refine h.take fun id job hid hjob => ?_
            obtain ⟨j, hj, rfl⟩ := List.mem_map.mp hid
            obtain ⟨hstored, hrun⟩ := hleased j hj
            rw [hstored] at hjob
            cases hjob
            simp [hrun]
          refine processJobs_drains hquiet hs batch _ t₂ (hwf₁.congr hjobs hqueued harchive)
            ((htaken.quiet hd₁).quiet hd₂) hfrom ?_ hret
          intro id attemptId attemptNo hans
          obtain ⟨hin, hno⟩ := hanswers _ (attemptsMap_some hans)
          have hle := (h.quiet hd₁).counts id
          rw [hcounts, if_pos hin]
          simp only at hno
          omega

/-! ## The loop as a loop -/

/-- One round of `run_until_empty`, with the count so far. -/
def roundTurn (flow : Flow) (round : RoundEnv) : InnerState × Nat → Turn (InnerState × Nat) (Outcome Nat × InnerState)
  | (s, totalProcessed) =>
      match leaseRound flow round s with
      | (.ok batch, s) =>
          if batch.isEmpty then .stop (.ok totalProcessed, s)
          else
            match processBatch flow round.batch batch s with
            | (.ok (), s) => .again (s, totalProcessed + batch.length)
            | (.err message, s) => .stop (.err message, s)
            | (.panic, s) => .stop (.panic, s)
      | (.err message, s) => .stop (.err message, s)
      | (.panic, s) => .stop (.panic, s)

theorem runUntilEmpty_eq_loop (rounds : List RoundEnv) : ∀ (s : InnerState) (totalProcessed : Nat),
    runUntilEmpty flow rounds s totalProcessed = loop (roundTurn flow) rounds (s, totalProcessed) := by
  induction rounds with
  | nil => intro s total; rfl
  | cons round rest ih =>
      intro s total
      simp only [runUntilEmpty, loop, roundTurn]
      cases hlease : leaseRound flow round s with
      | mk outcome s₁ =>
          cases outcome with
          | err message => rfl
          | panic => rfl
          | ok batch =>
              simp only
              by_cases hempty : batch.isEmpty = true
              · simp only [hempty, if_true]
              · simp only [hempty]
                cases processBatch flow round.batch batch s₁ with
                | mk outcome s₂ =>
                    cases outcome with
                    | err message => rfl
                    | panic => rfl
                    | ok _ => exact ih s₂ _

/-- What a lease hands out was queued before it. -/
theorem leaseRound_takenFrom {round : RoundEnv} {batch : List Job} (hquiet : AddsNoWork flow.queue round.beforeLease)
    (hs : WellFormed s) (hlease : leaseRound flow round s = (.ok batch, t)) : TakenFrom flow.queue s batch := by
  obtain ⟨hwf₀, hd₀⟩ := hquiet s hs
  obtain ⟨ready, hready, _⟩ := candidates_ready hwf₀ flow.queue round.leaseNow 32
  unfold leaseRound at hlease
  have hp : (leaseJobsBatchWithOrdering (round.beforeLease s) round.leaseNow flow.queue flow.workerId
      flow.leaseSeconds 32 flow.ordering).1 ≠ .panic := by rw [hlease]; simp
  have hret := lease_returned hwf₀ hready hp
  rw [hlease] at hret
  cases hret
  intro job hjob
  obtain ⟨r, hr, rfl⟩ := List.mem_map.mp hjob
  obtain ⟨hstored, ⟨hqueue, hst, _⟩, _⟩ := (hready.complete r).mp (List.mem_of_mem_take hr)
  obtain ⟨before, hbefore, hq, hmax, _, hqueued⟩ := hd₀.origin r.id r hstored hqueue
  exact ⟨before, hbefore, hq, (hqueued hst).1, hmax.symm⟩

/-- **A round that goes on** lowers what is left to do by the size of its batch. -/
theorem roundTurn_again {round : RoundEnv} {total total' : Nat} (hquiet : QuietRound flow.queue round)
    (hs : WellFormed s) (honce : Once flow.queue s) (hturn : roundTurn flow round (s, total) = .again (t, total')) :
    WellFormed t ∧ Once flow.queue t ∧ total < total' ∧
      total' + workLeft t flow.queue ≤ total + workLeft s flow.queue := by
  obtain ⟨hwf₀, hd₀⟩ := hquiet.beforeLease s hs
  simp only [roundTurn] at hturn
  cases hlease : leaseRound flow round s with
  | mk outcome s₁ =>
      rw [hlease] at hturn
      cases outcome with
      | err message => cases hturn
      | panic => cases hturn
      | ok batch =>
          have hfrom := leaseRound_takenFrom hquiet.beforeLease hs hlease
          unfold leaseRound at hlease
          simp only at hturn
          by_cases hempty : batch.isEmpty = true
          · rw [if_pos hempty] at hturn
            cases hturn
          · rw [if_neg hempty] at hturn
            cases hproc : processBatch flow round.batch batch s₁ with
            | mk outcome s₂ =>
                rw [hproc] at hturn
                cases outcome with
                | err message => cases hturn
                | panic => cases hturn
                | ok _ =>
                    cases hturn
                    obtain ⟨hnd, hleased⟩ := leased_spec hwf₀ hlease
                    have hp : (leaseJobsBatchWithOrdering (round.beforeLease s) round.leaseNow flow.queue flow.workerId
                        flow.leaseSeconds 32 flow.ordering).1 ≠ .panic := by rw [hlease]; simp
                    have hwf₁ := leaseJobsBatchWithOrdering_wellFormed hwf₀ flow.queue flow.workerId flow.leaseSeconds
                      32 flow.ordering hp
                    have hd₁ : Drains flow.queue (fun _ => False) (round.beforeLease s) _ := lease_drains hp
                    rw [hlease] at hwf₁ hd₁
                    obtain ⟨hwf₂, hd₂⟩ := processBatch_drains hquiet.beforeStart hquiet.meanwhile honce hwf₁
                      (hd₀.quiet hd₁) hnd (fun job hjob => ⟨(hleased job hjob).1, (hleased job hjob).2.1⟩) hfrom hproc
                    have hworked : (batch.map (·.id)).toFinset ⊆ queuedIds s flow.queue := by
                      intro id hid
                      obtain ⟨job, hjob, rfl⟩ := List.mem_map.mp (List.mem_toFinset.mp hid)
                      obtain ⟨before, hbefore, hq, hst, _⟩ := hfrom job hjob
                      exact (mem_queuedIds hs).mpr ⟨before, hbefore, hq, hst⟩
                    have hwork := hd₂.work_le hs hwf₂ hworked fun id hid => List.mem_toFinset.mp hid
                    rw [List.toFinset_card_of_nodup hnd, List.length_map] at hwork
                    have hpos : 0 < batch.length :=
                      List.length_pos_iff.mpr fun hnil => hempty (by rw [hnil]; rfl)
                    exact ⟨hwf₂, hd₂.once honce, by omega, by omega⟩

/-- No job of the queue is due. -/
def Idle (queue : String) (now : DateTime) (s : InnerState) : Prop :=
  ∀ id job, s.jobs id = some job → ¬Due queue now job

/-- A lease that comes back empty leaves no due job: what was due has missed its deadline, and is in the DLQ now. -/
theorem idle_of_empty_lease {now : DateTime} (h : WellFormed s)
    (hlease : leaseJobsBatchWithOrdering s now queue flow.workerId flow.leaseSeconds 32 flow.ordering = (.ok [], t)) :
    Idle queue now t := by
  obtain ⟨ready, hready, _⟩ := candidates_ready h queue now 32
  have hspec : LeaseSpec s now queue flow.workerId flow.leaseSeconds 32 ready
      (leaseJobsBatchWithOrdering s now queue flow.workerId flow.leaseSeconds 32 flow.ordering) :=
    lease_spec h hready (by rw [hlease]; simp)
  rw [hlease] at hspec
  have hnil : ready.take (max 32 0 : Int).toNat = [] := by
    have hret := hspec.returned
    simp only [Outcome.ok.injEq] at hret
    exact List.map_eq_nil_iff.mp hret.symm
  have hmissed : ∀ id job, s.jobs id = some job → Due queue now job → Missed now job := by
    rcases (take_ready_eq_nil hready h 32).mp hnil with hle | hall
    · exact absurd hle (by decide)
    · exact hall
  intro id job' hjob' hdue'
  by_cases hbefore : ∃ job, s.jobs id = some job ∧ Due queue now job
  · obtain ⟨job, hjob, hdue⟩ := hbefore
    have hafter := hspec.missed id job hjob hdue (hmissed id job hjob hdue)
    simp only at hafter
    rw [hjob'] at hafter
    cases hafter
    exact absurd hdue'.2.1 (by simp [deadlineExceeded, JobStatus.asStr])
  · have hafter := hspec.others id (fun job hjob hdue => absurd ⟨job, hjob, hdue⟩ hbefore) (by rw [hnil]; simp)
    simp only at hafter
    exact hbefore ⟨job', by rw [← hafter, hjob'], hdue'⟩

/-- **`run_until_empty` comes to an end.** From every reachable state in which no job of the queue recurs, and with
    nobody else putting work into the queue, it returns after at most as many batches as there are leases left to take,
    whatever the handlers do and the clocks read. If it returns `Ok`, it has counted no more jobs than that, and no job
    of the queue was due at its last lease. -/
theorem run_until_empty_ends (hs : memorySystem.Reachable s) (flow : Flow) (rounds : List RoundEnv)
    (honce : Once flow.queue s) (hquiet : ∀ round ∈ rounds, QuietRound flow.queue round)
    (hlen : workLeft s flow.queue < rounds.length) :
    ∃ outcome t, runUntilEmpty flow rounds s 0 = some (outcome, t) ∧
      ∀ n, outcome = .ok n → n ≤ workLeft s flow.queue ∧ ∃ round ∈ rounds, Idle flow.queue round.leaseNow t := by
  have hwf := reachable_wellFormed hs
  rw [runUntilEmpty_eq_loop]
  -- what the loop keeps: the count so far and what is left to do stay within the budget of the start
  let kept (σ : InnerState × Nat) : Prop :=
    WellFormed σ.1 ∧ Once flow.queue σ.1 ∧ σ.2 + workLeft σ.1 flow.queue ≤ workLeft s flow.queue
  have hagain : ∀ round ∈ rounds, ∀ σ σ', kept σ → roundTurn flow round σ = .again σ' →
      kept σ' ∧ workLeft σ'.1 flow.queue < workLeft σ.1 flow.queue := by
    rintro round hround ⟨t, total⟩ ⟨t', total'⟩ hkept hturn
    obtain ⟨ht, honce', hle⟩ : WellFormed t ∧ Once flow.queue t ∧
      total + workLeft t flow.queue ≤ workLeft s flow.queue := hkept
    obtain ⟨ht', honce'', hlt, hwork⟩ := roundTurn_again (hquiet round hround) ht honce' hturn
    exact ⟨⟨ht', honce'', hwork.trans hle⟩, by simp only; omega⟩
  have hstart : kept (s, 0) := ⟨hwf, honce, by simp⟩
  obtain ⟨⟨outcome, t⟩, hresult⟩ := loop_ends (fun σ : InnerState × Nat => workLeft σ.1 flow.queue) rounds hagain (s, 0)
    hstart hlen
  refine ⟨outcome, t, hresult, ?_⟩
  have hpost := loop_result (P := fun r : Outcome Nat × InnerState => ∀ n, r.1 = .ok n →
    n ≤ workLeft s flow.queue ∧ ∃ round ∈ rounds, Idle flow.queue round.leaseNow r.2) rounds
    (fun round hround σ σ' hσ hturn => (hagain round hround σ σ' hσ hturn).1) ?_ (s, 0) (outcome, t) hstart hresult
  · exact hpost
  · rintro round hround ⟨t, total⟩ ⟨outcome, t'⟩ hkept hturn n hn
    obtain ⟨ht, _, hle⟩ : WellFormed t ∧ Once flow.queue t ∧
      total + workLeft t flow.queue ≤ workLeft s flow.queue := hkept
    simp only at hn
    subst hn
    obtain ⟨hwf₀, _⟩ := (hquiet round hround).beforeLease t ht
    simp only [roundTurn] at hturn
    cases hlease : leaseRound flow round t with
    | mk outcome s₁ =>
        rw [hlease] at hturn
        cases outcome with
        | err message => cases hturn
        | panic => cases hturn
        | ok batch =>
            simp only at hturn
            by_cases hempty : batch.isEmpty = true
            · rw [if_pos hempty] at hturn
              cases hturn
              rw [List.isEmpty_iff] at hempty
              subst hempty
              exact ⟨by omega, round, hround, idle_of_empty_lease hwf₀ hlease⟩
            · rw [if_neg hempty] at hturn
              revert hturn
              cases processBatch flow round.batch batch s₁ with
              | mk outcome s₂ => cases outcome <;> intro hturn <;> cases hturn

end Rounds

/-! ### A job that always fails -/

theorem addsNoWork_id (queue : String) : AddsNoWork queue id := fun s hs => ⟨hs, .refl queue s⟩

/-- The heartbeat of a handler puts no work into a queue. -/
theorem addsNoWork_heartbeat (queue : String) (now : DateTime) (jobId : Uuid) (workerId : String)
    (leaseSeconds : Int) :
    AddsNoWork queue (fun s => (extendLease s now jobId workerId leaseSeconds).2) :=
  fun _ hs => ⟨extendLease_wellFormed hs jobId workerId leaseSeconds, extendLease_drains jobId workerId leaseSeconds⟩

/-- A round in which every handler fails after one heartbeat, and is retried a second later. -/
def failingRound (n : Nat) : RoundEnv where
  beforeLease := id
  leaseNow := 10 * (n + 1) * Chrono.nanosPerSecond
  batch :=
    { beforeStart := id
      startNow := 10 * (n + 1) * Chrono.nanosPerSecond
      job := fun jobId =>
        { attemptId := 20 + n
          meanwhile := fun s => (extendLease s (10 * (n + 1) * Chrono.nanosPerSecond + 5) jobId "w1" 30).2
          timedOut := false
          taskEnd := .err "HANDLER_ERROR: smtp refused"
          latencyMs := 7
          now := 10 * (n + 1) * Chrono.nanosPerSecond + 9
          clock := 10 * (n + 1) * Chrono.nanosPerSecond + 9
          delaySecs := 1
          newId := 40 + n } }

theorem failingRound_quiet (n : Nat) : QuietRound "emails" (failingRound n) :=
  ⟨addsNoWork_id _, addsNoWork_id _, fun id => addsNoWork_heartbeat _ _ id "w1" 30⟩

/-- A job with three attempts that fails every time takes three rounds, and a fourth finds the queue empty. -/
theorem run_until_empty_ends_failing : workLeft oneQueued emailFlow.queue = 3 ∧
    ∃ outcome t, runUntilEmpty emailFlow ((List.range 4).map failingRound) oneQueued 0 = some (outcome, t) ∧
      ∀ n, outcome = .ok n → n ≤ workLeft oneQueued emailFlow.queue ∧
        ∃ round ∈ (List.range 4).map failingRound, Idle emailFlow.queue round.leaseNow t := by
  have hwork : workLeft oneQueued emailFlow.queue = 3 := by decide
  refine ⟨hwork, run_until_empty_ends oneQueued_reachable emailFlow _ ?_ ?_ (by rw [hwork]; simp)⟩
  · intro id job hjob _
    rcases update_eq_some hjob with ⟨_, rfl⟩ | ⟨_, hnone⟩
    · rfl
    · cases hnone
  · intro round hround
    obtain ⟨n, _, rfl⟩ := List.mem_map.mp hround
    exact failingRound_quiet n

end Azums.Quickstart
