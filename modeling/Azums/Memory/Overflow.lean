import Azums.Memory.Atomicity
import Azums.Memory.Idempotency

/-!
# `Memory.Overflow` — acknowledgements that panic

`mark_succeeded` computes the next occurrence of a recurring job before it checks anything, by two `chrono` additions on
fields that `enqueue` has not looked at. A panic there happens under the write lock and poisons the store.

`ack_never_panics_iff` says for which jobs this cannot happen: those whose `run_at` and deadline, advanced by the
interval, stay in `chrono`'s range. A retry moves `run_at`, so the runs are those whose retries keep the sum in range.
-/

namespace Azums.Memory

variable {s s' : InnerState} {now : DateTime} {id : Uuid}

/-- The job does not recur, or the additions that compute its next occurrence stay in range. -/
def Fits (job : Job) : Prop :=
  ∀ interval, job.recurringIntervalSeconds = some interval → (Chrono.addSeconds job.runAt interval).isSome ∧
    ∀ deadline, job.deadlineAt = some deadline → (Chrono.addSeconds deadline interval).isSome

/-- A retry of the job leaves it with a `run_at` that can be advanced by its interval. -/
def RetryInRange (id : Uuid) (s : InnerState) : Call → Prop
  | .job (.reschedule _ jobId _ _ _ nextRunAt _ _) => jobId = id → ∀ job interval, s.jobs id = some job →
      job.recurringIntervalSeconds = some interval → (Chrono.addSeconds nextRunAt interval).isSome
  | _ => True

/-- The backend, with retries of the job `id` that stay in range. -/
def retriesInRange (id : Uuid) : System InnerState Call := backendSystem.restrict fun s call _ => RetryInRange id s call

/-- No lease, start or acknowledgement of the job panics in this state; a lease is asked for a length whose end `chrono`
    can represent, and a start for attempts that the counters have room for. -/
structure NeverPanics (s : InnerState) (id : Uuid) : Prop where
  lease : ∀ now queue workerId leaseSeconds batchSize ordering, (Chrono.addSeconds now leaseSeconds).isSome →
    (leaseJobsBatchWithOrdering s now queue workerId leaseSeconds batchSize ordering).1 ≠ .panic
  start : ∀ now requests workerId, CountsFit s requests → (startAttemptsBatch s now requests workerId).1 ≠ .panic
  ack : ∀ now newId attemptId workerId latencyMs,
    (markSucceeded s now newId id attemptId workerId latencyMs).1 ≠ .panic

/-! ## One call -/

theorem lease_ne_panic {leaseSeconds : Int} (hend : (Chrono.addSeconds now leaseSeconds).isSome)
    (queue workerId : String) (batchSize : Int) (ordering : QueueOrdering) :
    (leaseJobsBatchWithOrdering s now queue workerId leaseSeconds batchSize ordering).1 ≠ .panic := by
  obtain ⟨t, ht⟩ := Option.isSome_iff_exists.mp hend
  unfold leaseJobsBatchWithOrdering
  simp only [ht]
  split <;> simp

theorem startEach_ne_panic (workerId : String) (requests : List (Uuid × Uuid)) :
    ∀ s : InnerState, CountsFit s requests → (startEach now workerId requests s).1 ≠ .panic := by
  induction requests with
  | nil => intro s _; simp [startEach]
  | cons request rest ih =>
      intro s hfit
      obtain ⟨jobId, attemptId⟩ := request
      obtain ⟨hroom, hfit⟩ := (countsFit_cons now workerId).mp hfit
      by_cases hl : Leased s workerId jobId
      · rw [startEach_cons now attemptId rest ⟨hl, hroom⟩, Ne, prependAttempt_panic]
        exact ih _ hfit
      · obtain ⟨message, hm⟩ := startEach_refused now attemptId rest hl
        simp [hm]

/-- `mark_succeeded` panics exactly if the next occurrence is out of range. -/
theorem markSucceeded_panic_iff (newId attemptId : Uuid) (workerId : String) (latencyMs : Int) :
    (markSucceeded s now newId id attemptId workerId latencyMs).1 = .panic ↔ ¬NextInRange s id := by
  rw [← recurringJob_isSome now newId, Option.not_isSome_iff_eq_none]
  rcases markSucceeded_cases s now newId id attemptId workerId latencyMs with
    ⟨hnone, he⟩ | ⟨_, hsome, e, he⟩ | ⟨next, _, _, hnext, _, _, he⟩
  · simp [he, hnone]
  · obtain ⟨next, hnext⟩ := Option.isSome_iff_exists.mp hsome
    simp [he, hnext]
  · simp [he, hnext]

/-- A stored job fits exactly if its acknowledgement gets past the additions. -/
theorem nextInRange_iff {job : Job} (hjob : s.jobs id = some job) : NextInRange s id ↔ Fits job := by
  constructor
  · intro h interval hi
    exact h job interval hjob hi
  · intro h job' interval hjob' hi
    rw [hjob] at hjob'
    cases hjob'
    exact h interval hi

/-! ## A run -/

/-- The record of the job, stored or archived, fits. -/
def RecordFits (s : InnerState) (id : Uuid) : Prop := ∃ job, getJob s id = some job ∧ Fits job

/-- One change of a job keeps it fitting; only a retry moves its `run_at`. -/
theorem Fits.move {op : MemOp} {job job' : Job} (h : Fits job) (hjob : s.jobs id = some job) (hid : job.id = id)
    (hretry : RetryInRange id s (.job op)) (move : JobMove op job job') : Fits job' := by
  cases move with
  | retry _ hjobId =>
      intro interval hi
      exact ⟨hretry (hjobId.symm.trans hid) job interval hjob hi, (h interval hi).2⟩
  | _ => exact h

theorem recordFits_of_step {call : Call} (hwf : WellFormed s) (hstep : backendSystem.step s call s')
    (hretry : RetryInRange id s call) (h : RecordFits s id) : RecordFits s' id := by
  obtain ⟨job, hget, hfits⟩ := h
  obtain ⟨job', hget', rfl | ⟨op, rfl, move⟩⟩ := getJob_step hwf hstep hget
  · exact ⟨job', hget', hfits⟩
  · refine ⟨job', hget', ?_⟩
    rcases getJob_eq_some.mp hget with hjob | ⟨_, harch⟩
    · exact hfits.move hjob (hwf.jobId id job hjob) hretry move
    · -- an archived job has succeeded and makes no further change
      have hst := (hwf.archived id job harch).2.1
      rwa [move.eq_of_terminal (Or.inl hst)]

theorem recordFits_of_run {calls : List Call} (hrun : (retriesInRange id).Run s calls s') :
    backendSystem.Reachable s → RecordFits s id → backendSystem.Reachable s' ∧ RecordFits s' id := by
  induction hrun with
  | nil => exact And.intro
  | cons hstep _ ih =>
      intro hreach h
      exact ih (hreach.next hstep.1) (recordFits_of_step (backend_invariants hreach).1 hstep.1 hstep.2 h)

theorem RecordFits.neverPanics (h : RecordFits s id) : NeverPanics s id where
  lease _ queue workerId _ batchSize ordering hend := lease_ne_panic hend queue workerId batchSize ordering
  start _ requests workerId hfit := startEach_ne_panic workerId requests s hfit
  ack now newId attemptId workerId latencyMs := by
    rw [Ne, markSucceeded_panic_iff, not_not]
    obtain ⟨job, hget, hfits⟩ := h
    rcases getJob_eq_some.mp hget with hjob | ⟨hnone, _⟩
    · exact (nextInRange_iff hjob).mpr hfits
    · intro job' interval hjob'
      rw [hnone] at hjob'
      cases hjob'

/-- A stored job can be leased, started and acknowledged without a panic throughout every run, exactly if it fits. -/
theorem neverPanics_iff_fits (h : backendSystem.Reachable s) {job : Job} (hjob : s.jobs id = some job) :
    (∀ calls s', (retriesInRange id).Run s calls s' → NeverPanics s' id) ↔ Fits job := by
  constructor
  · intro hall
    have hack := (hall [] s (.nil s)).ack 0 0 0 "" 0
    rwa [Ne, markSucceeded_panic_iff, not_not, nextInRange_iff hjob] at hack
  · intro hfits calls s' hrun
    exact (recordFits_of_run hrun h ⟨job, getJob_eq_some.mpr (Or.inl hjob), hfits⟩).2.neverPanics

/-! ## An accepted job -/

/-- What `enqueue` returns is the id of a stored job: the new one, or one that carries its idempotency key. -/
theorem enqueue_stored (hwf : WellFormed s) (now : DateTime) (newId : Uuid) {order : List Uuid}
    (ho : Enumerates s.jobs order) (new : NewJob) :
    ∃ id job, (enqueue s now newId order new).1 = .ok id ∧ (enqueue s now newId order new).2.jobs id = some job ∧
      (job = newEntity now newId new ∨ new.idempotencyKey.isSome ∧ job.idempotencyKey = new.idempotencyKey) := by
  have hstored (he : enqueue s now newId order new = (.ok newId, insertQueued s (newEntity now newId new))) :
      (enqueue s now newId order new).1 = .ok newId ∧
        (enqueue s now newId order new).2.jobs newId = some (newEntity now newId new) := by
    rw [he]
    exact ⟨rfl, Function.update_self ..⟩
  cases hkey : new.idempotencyKey with
  | none =>
      obtain ⟨hok, hjob⟩ := hstored (by simp [enqueue, hkey])
      exact ⟨newId, _, hok, hjob, Or.inl rfl⟩
  | some key =>
      rcases enqueue_cases now newId hwf ho hkey with ⟨existing, he, hjob, hhas⟩ | ⟨_, he⟩
      · rw [he]
        exact ⟨existing.id, existing, rfl, hjob, Or.inr ⟨rfl, hhas⟩⟩
      · obtain ⟨hok, hjob⟩ := hstored he
        exact ⟨newId, _, hok, hjob, Or.inl rfl⟩

/-- **Which accepted jobs cannot crash an acknowledgement.** `enqueue` accepts every job. The job whose id it returns
    can be leased, started and acknowledged without a panic in every state of every run whose retries of it stay in
    range, counters apart that are at their maximum, if and only if the job does not recur or its `run_at` and its
    deadline, advanced by the interval, are in range. -/
theorem ack_never_panics_iff (h : backendSystem.Reachable s) (now : DateTime) {newId : Uuid} (hfresh : Unused s newId)
    {order : List Uuid} (ho : Enumerates s.jobs order) (new : NewJob) :
    ∃ id job, (enqueue s now newId order new).1 = .ok id ∧ (enqueue s now newId order new).2.jobs id = some job ∧
      (job = newEntity now newId new ∨ new.idempotencyKey.isSome ∧ job.idempotencyKey = new.idempotencyKey) ∧
      ((∀ calls s', (retriesInRange id).Run (enqueue s now newId order new).2 calls s' → NeverPanics s' id) ↔
        Fits job) := by
  obtain ⟨id, job, hok, hjob, hwhich⟩ := enqueue_stored (backend_invariants h).1 now newId ho new
  refine ⟨id, job, hok, hjob, hwhich, neverPanics_iff_fits (h.next (i := .job (.enqueue now newId order new)) ?_) hjob⟩
  refine ⟨⟨hfresh, ho⟩, Prod.ext ?_ (MemOp.finish_snd _)⟩
  show (MemOp.apply.finish (enqueue s now newId order new)).1 = true
  rw [← Prod.mk.eta (p := enqueue s now newId order new), hok]
  rfl

/-- A job that recurs every day, the deadline a day after its `run_at`: no acknowledgement of it panics. -/
theorem ack_never_panics_iff_daily :
    ∃ id, (enqueue InnerState.init 0 7 [] { welcomeEmail with
        recurringIntervalSeconds := some 86400, deadlineAt := some 86400000000000 }).1 = .ok id ∧
      ∀ calls s', (retriesInRange id).Run (enqueue InnerState.init 0 7 [] { welcomeEmail with
        recurringIntervalSeconds := some 86400, deadlineAt := some 86400000000000 }).2 calls s' →
          NeverPanics s' id := by
  have hfresh : Unused InnerState.init 7 := ⟨rfl, rfl⟩
  obtain ⟨id, job, hok, hjob, hwhich, hiff⟩ := ack_never_panics_iff (.start rfl) 0 hfresh enumerates_nil
    { welcomeEmail with
      recurringIntervalSeconds := some 86400, deadlineAt := some 86400000000000 }
  refine ⟨id, hok, hiff.mpr ?_⟩
  rcases hwhich with rfl | ⟨hkey, _⟩
  · intro interval hi
    cases hi
    refine ⟨by decide, fun deadline hd => ?_⟩
    cases hd
    decide
  · cases hkey

/-- A recurring job whose interval is `i64::MAX` is accepted, leased and started; its acknowledgement panics. -/
theorem accepted_job_panics :
    (enqueue InnerState.init 0 7 [] rareReport).1 = .ok 7 ∧
      (retriesInRange 7).Run (enqueue InnerState.init 0 7 [] rareReport).2
        [.job (.lease 5 "emails" "w1" 30 10 .fifo), .job (.startAttempts 6 [(7, 9)] "w1")] (started rareReport) ∧
      (markSucceeded (started rareReport) 36 8 7 9 "w1" 5).1 = .panic ∧ ¬NeverPanics (started rareReport) 7 := by
  have hpanic : (markSucceeded (started rareReport) 36 8 7 9 "w1" 5).1 = .panic := by decide
  refine ⟨rfl, .cons ⟨⟨trivial, Prod.ext (by decide) rfl⟩, trivial⟩
    (.cons ⟨⟨⟨by decide, by decide⟩, Prod.ext (by decide) rfl⟩, trivial⟩ (.nil _)), hpanic, ?_⟩
  intro h
  exact h.ack 36 8 9 "w1" 5 hpanic

end Azums.Memory
