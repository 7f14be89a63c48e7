import Azums.Lib.OrderBy
import Azums.Memory.Calls

/-!
# `Memory.Leasing` — a lease against its specification

A lease reads an ordered index that other calls have built: it sweeps the missed deadlines out of it, filters what is
left by `run_at` and takes a prefix. Its specification knows no index. `Ready` is the list of the queued jobs that are
due and in time, in the order of their priority, `run_at`, `created_at` and id; `LeaseSpec` says what a lease makes of
the job map, given that list.

`lease_spec_iff` says for every reachable state when a lease meets it: always, but where there is a job to lease and
the end of the lease is outside `chrono`'s range. There the lease panics, with the jobs it wanted already taken out of
the index.
-/

namespace Azums.Memory

open Function (update)

variable {s s' t : InnerState} {now : DateTime} {queue workerId : String}

/-! ## The specification -/

/-- A queued job of the queue whose time has come. -/
def Due (queue : String) (now : DateTime) (job : Job) : Prop :=
  job.queue = queue ∧ job.status = "queued" ∧ job.runAt ≤ now

/-- The job's deadline has passed. -/
def Missed (now : DateTime) (job : Job) : Prop := ∃ d, job.deadlineAt = some d ∧ d < now

/-- The order of a lease: priority descending, then `run_at`, `created_at` and id ascending. -/
def Precedes (a b : Job) : Prop :=
  b.priority < a.priority ∨ (b.priority = a.priority ∧ (a.runAt < b.runAt ∨ (a.runAt = b.runAt ∧
    (a.createdAt < b.createdAt ∨ (a.createdAt = b.createdAt ∧ a.id < b.id)))))

/-- `ready` lists the jobs that a lease may hand out, in its order. -/
structure Ready (s : InnerState) (queue : String) (now : DateTime) (ready : List Job) : Prop where
  sorted : ready.Pairwise Precedes
  complete : ∀ job, job ∈ ready ↔ s.jobs job.id = some job ∧ Due queue now job ∧ ¬Missed now job

/-- What a lease of `batchSize` jobs returns and leaves, where `ready` are the jobs it may hand out. -/
structure LeaseSpec (s : InnerState) (now : DateTime) (queue workerId : String) (leaseSeconds batchSize : Int)
    (ready : List Job) (result : Outcome (List Job) × InnerState) : Prop where
  returned : result.1 = .ok ((ready.take (max batchSize 0).toNat).map
    (leasedJob now (now + leaseSeconds * Chrono.nanosPerSecond) workerId))
  distinct : ((ready.take (max batchSize 0).toNat).map (·.id)).Nodup
  leased : ∀ job ∈ ready.take (max batchSize 0).toNat, result.2.jobs job.id =
    some (leasedJob now (now + leaseSeconds * Chrono.nanosPerSecond) workerId job)
  missed : ∀ id job, s.jobs id = some job → Due queue now job → Missed now job →
    result.2.jobs id = some (deadlineExceeded now job)
  others : ∀ id, (∀ job, s.jobs id = some job → Due queue now job → ¬Missed now job) →
    id ∉ (ready.take (max batchSize 0).toNat).map (·.id) → result.2.jobs id = s.jobs id
  queues : ∀ q, q ≠ queue → result.2.queuedJobs q = s.queuedJobs q
  attempts : result.2.attempts = s.attempts ∧ result.2.attemptCounts = s.attemptCounts
  archive : result.2.archive = s.archive
  streams : result.2.streams = s.streams ∧ result.2.streamOffsets = s.streamOffsets

/-- There is no job that the lease would hand out. -/
def NothingToLease (s : InnerState) (now : DateTime) (queue : String) (batchSize : Int) : Prop :=
  batchSize ≤ 0 ∨ ∀ id job, s.jobs id = some job → Due queue now job → Missed now job

/-! ## The order of the index -/

/-- The order of the specification is the order of the index. -/
theorem precedes_iff {a b : Job} :
    Precedes a b ↔ QueueEntry.cmp (QueueEntry.fromJob a) (QueueEntry.fromJob b) = .lt := by
  simp only [Precedes, QueueEntry.cmp, Ordering.then_eq_lt, compare_lt_iff_lt, compare_eq_iff_eq,
    QueueEntry.fromJob_priority, QueueEntry.fromJob_runAt, QueueEntry.fromJob_createdAt, QueueEntry.fromJob_id]

theorem Precedes.ne {a b : Job} (h : Precedes a b) : a ≠ b := by
  rintro rfl
  simp [Precedes] at h

theorem Precedes.asymm {a b : Job} (h : Precedes a b) : ¬Precedes b a := by
  intro h'
  have hgt := Std.OrientedCmp.gt_of_lt (precedes_iff.mp h')
  rw [precedes_iff.mp h] at hgt
  cases hgt

/-- Two lists of the ready jobs are the same list. -/
theorem Ready.unique {ready ready' : List Job} (h : Ready s queue now ready) (h' : Ready s queue now ready') :
    ready = ready' := by
  have hnd (l : List Job) (hl : l.Pairwise Precedes) : l.Nodup := hl.imp fun hab => hab.ne
  refine OrderBy.eq_of_sorted ((List.perm_ext_iff_of_nodup (hnd _ h.sorted) (hnd _ h'.sorted)).mpr fun job => ?_)
    h.sorted h'.sorted fun a _ b _ hab hba => absurd hba hab.asymm
  rw [h.complete, h'.complete]

/-- Ready jobs have ids of their own. -/
theorem Ready.ids_nodup {ready : List Job} (h : Ready s queue now ready) : (ready.map (·.id)).Nodup := by
  refine List.Nodup.map_on ?_ (h.sorted.imp fun hab => hab.ne)
  intro a ha b hb hid
  have hja := ((h.complete a).mp ha).1
  rw [hid, ((h.complete b).mp hb).1] at hja
  exact (Option.some.inj hja).symm

/-- Entries of stored jobs are the keys of these jobs. -/
theorem map_fromJob_filterMap (entries : List QueueEntry)
    (hall : ∀ e ∈ entries, ∃ job, s.jobs e.id = some job ∧ e = QueueEntry.fromJob job) :
    (entries.filterMap (fun e => s.jobs e.id)).map QueueEntry.fromJob = entries := by
  induction entries with
  | nil => simp
  | cons e rest ih =>
      obtain ⟨job, hjob, he⟩ := hall e List.mem_cons_self
      simp only [List.filterMap_cons, hjob, List.map_cons]
      rw [← he, ih fun e' he' => hall e' (List.mem_cons_of_mem _ he')]

/-- The due entries of a queue's index are the keys of its due jobs, in the order of a lease. -/
theorem due_jobs (h : WellFormed s) (queue : String) (now : DateTime) :
    ∃ due : List Job, (s.index queue).toList.filter (fun e => decide (e.runAt ≤ now)) = due.map QueueEntry.fromJob ∧
      due.Pairwise Precedes ∧ ∀ job, job ∈ due ↔ s.jobs job.id = some job ∧ Due queue now job := by
  have hall : ∀ e ∈ (s.index queue).toList.filter (fun e => decide (e.runAt ≤ now)),
      ∃ job, s.jobs e.id = some job ∧ e = QueueEntry.fromJob job := by
    intro e he
    obtain ⟨job, hjob, _, _, _, heq⟩ := h.job_of_mem (List.mem_of_mem_filter he)
    exact ⟨job, hjob, heq⟩
  have hkeys := map_fromJob_filterMap _ hall
  refine ⟨_, hkeys.symm, ?_, fun job => ?_⟩
  · have hsorted := (s.index queue).sorted.filter (fun e => decide (e.runAt ≤ now))
    rw [← hkeys, List.pairwise_map] at hsorted
    exact hsorted.imp fun hab => precedes_iff.mpr hab
  · rw [List.mem_filterMap]
    constructor
    · rintro ⟨e, he, hjob⟩
      obtain ⟨hin, hdue⟩ := List.mem_filter.mp he
      obtain ⟨job', hjob', hid, hqueue, hst, heq⟩ := h.job_of_mem hin
      rw [hjob] at hjob'
      cases hjob'
      rw [decide_eq_true_eq, heq, QueueEntry.fromJob_runAt] at hdue
      exact ⟨by rw [hid]; exact hjob, hqueue, hst, hdue⟩
    · rintro ⟨hjob, hqueue, hst, hrun⟩
      refine ⟨QueueEntry.fromJob job, List.mem_filter.mpr ⟨?_, decide_eq_true hrun⟩, hjob⟩
      exact (h.indexed queue _).mpr ⟨job, hjob, hqueue, hst, rfl⟩

/-! ## The sweep -/

/-- After the sweep, the due jobs of the queue are those that were due and in time before it. -/
theorem swept_due (h : WellFormed s) {job : Job} :
    ((sweepDeadlines s now queue).jobs job.id = some job ∧ Due queue now job) ↔
      s.jobs job.id = some job ∧ Due queue now job ∧ ¬Missed now job := by
  have hjobs := (sweep_jobs now queue (expiredDeadlines s now queue) s).1
  rw [sweepDeadlines, hjobs]
  by_cases hin : job.id ∈ (expiredDeadlines s now queue).map (·.id)
  · obtain ⟨job', d, hjob', hqueue, hst, hrun, hd, hlt⟩ := (mem_expiredDeadlines h).mp hin
    rw [mapAt_of_mem hin, hjob', Option.map_some]
    constructor
    · rintro ⟨heq, _, hq, _⟩
      rw [← Option.some.inj heq] at hq
      simp [deadlineExceeded] at hq
    · rintro ⟨heq, _, hnot⟩
      rw [Option.some.inj heq] at hd
      exact absurd ⟨d, hd, hlt⟩ hnot
  · rw [mapAt_of_not_mem hin]
    constructor
    · rintro ⟨hjob, hdue⟩
      refine ⟨hjob, hdue, ?_⟩
      rintro ⟨d, hd, hlt⟩
      exact hin ((mem_expiredDeadlines h).mpr ⟨job, d, hjob, hdue.1, hdue.2.1, hdue.2.2, hd, hlt⟩)
    · rintro ⟨hjob, hdue, _⟩
      exact ⟨hjob, hdue⟩

/-- The candidates of a lease are the keys of the first ready jobs. -/
theorem candidates_ready (h : WellFormed s) (queue : String) (now : DateTime) (batchSize : Int) :
    ∃ ready, Ready s queue now ready ∧ candidates (sweepDeadlines s now queue) now queue batchSize =
      (ready.take (max batchSize 0).toNat).map QueueEntry.fromJob := by
  have hswept : WellFormed (sweepDeadlines s now queue) := sweepDeadlines_wellFormed h queue
  obtain ⟨due, hkeys, hsorted, hmem⟩ := due_jobs hswept queue now
  refine ⟨due, ⟨hsorted, fun job => ?_⟩, ?_⟩
  · rw [hmem, swept_due h]
  · rw [candidates, hkeys, List.map_take]

/-! ## What a lease leaves alone -/

/-- Nothing changes but jobs and the index of one queue. -/
structure OnlyQueue (queue : String) (s s' : InnerState) : Prop where
  queues : ∀ q, q ≠ queue → s'.queuedJobs q = s.queuedJobs q
  streams : s'.streams = s.streams ∧ s'.streamOffsets = s.streamOffsets

theorem OnlyQueue.refl (queue : String) (s : InnerState) : OnlyQueue queue s s := ⟨fun _ _ => rfl, rfl, rfl⟩

theorem OnlyQueue.trans (h : OnlyQueue queue s t) (h' : OnlyQueue queue t s') : OnlyQueue queue s s' :=
  ⟨fun q hq => (h'.queues q hq).trans (h.queues q hq), h'.streams.1.trans h.streams.1, h'.streams.2.trans h.streams.2⟩

theorem onlyQueue_setJob (queue : String) (id : Uuid) (job : Job) : OnlyQueue queue s (s.setJob id job) :=
  ⟨fun _ _ => rfl, rfl, rfl⟩

theorem onlyQueue_indexRemove (queue : String) (es : List QueueEntry) : OnlyQueue queue s (s.indexRemove queue es) := by
  unfold InnerState.indexRemove
  cases s.queuedJobs queue with
  | none => exact .refl queue s
  | some ix => exact ⟨fun q hq => by simp [hq], rfl, rfl⟩

section Keeps

variable {R : InnerState → InnerState → Prop} (hrefl : ∀ s, R s s) (htrans : ∀ s t u, R s t → R t u → R s u)
  (hset : ∀ s id job, R s (s.setJob id job)) (hremove : ∀ s es, R s (s.indexRemove queue es))

include hrefl htrans hset hremove in
/-- A sweep writes jobs and takes entries out of the index of its queue, and does nothing else. -/
theorem sweep_keeps (entries : List QueueEntry) :
    ∀ s : InnerState, R s (entries.foldl (sweepEntry now queue) s) := by
  induction entries with
  | nil => exact hrefl
  | cons entry rest ih =>
      intro s
      have hround : R s (sweepEntry now queue s entry) := by
        unfold sweepEntry
        simp only
        split
        · exact htrans _ _ _ (hremove s [entry]) (hset _ _ _)
        · exact hremove s [entry]
      exact htrans _ _ _ hround (ih _)

include hrefl htrans hset in
theorem leaseEach_keeps (lockExpiresAt : DateTime) (taken : List QueueEntry) :
    ∀ s : InnerState, R s (leaseEach now lockExpiresAt workerId taken s).2 := by
  induction taken with
  | nil => exact hrefl
  | cons entry rest ih =>
      intro s
      unfold leaseEach
      split
      · exact htrans _ _ _ (hset s entry.id _) (ih _)
      · exact ih s

include hrefl htrans hset hremove in
/-- What the writes of a lease keep, the lease keeps: it writes jobs, and takes entries out of its queue's index. -/
theorem lease_keeps (s : InnerState) (leaseSeconds batchSize : Int) (ordering : QueueOrdering) :
    R s (leaseJobsBatchWithOrdering s now queue workerId leaseSeconds batchSize ordering).2 := by
  have hswept : R s (sweepDeadlines s now queue) := sweep_keeps hrefl htrans hset hremove _ s
  unfold leaseJobsBatchWithOrdering
  simp only
  split
  · exact hswept
  · have hremoved := htrans _ _ _ hswept (hremove (sweepDeadlines s now queue)
      (candidates (sweepDeadlines s now queue) now queue batchSize))
    cases Chrono.addSeconds now leaseSeconds with
    | none => exact hremoved
    | some lockExpiresAt => exact htrans _ _ _ hremoved (leaseEach_keeps hrefl htrans hset lockExpiresAt _ _)

end Keeps

theorem lease_onlyQueue (leaseSeconds batchSize : Int) (ordering : QueueOrdering) :
    OnlyQueue queue s (leaseJobsBatchWithOrdering s now queue workerId leaseSeconds batchSize ordering).2 :=
  lease_keeps (.refl queue) (fun _ _ _ => .trans) (fun _ => onlyQueue_setJob queue)
    (fun _ => onlyQueue_indexRemove queue) s leaseSeconds batchSize ordering

/-! ## When a lease meets its specification -/

/-- A lease comes back if it has nothing to hand out or can compute when its leases end. -/
theorem lease_returns (leaseSeconds batchSize : Int) (ordering : QueueOrdering) :
    (leaseJobsBatchWithOrdering s now queue workerId leaseSeconds batchSize ordering).1 ≠ .panic ↔
      candidates (sweepDeadlines s now queue) now queue batchSize = [] ∨
        (Chrono.addSeconds now leaseSeconds).isSome := by
  unfold leaseJobsBatchWithOrdering
  simp only
  split
  · rename_i hempty
    simp [List.isEmpty_iff.mp hempty]
  · rename_i hcons
    have hne : candidates (sweepDeadlines s now queue) now queue batchSize ≠ [] := fun hnil => hcons (by simp [hnil])
    cases Chrono.addSeconds now leaseSeconds with
    | none => simp [hne]
    | some t => simp

/-- No candidate is left exactly where there is nothing to lease. -/
theorem take_ready_eq_nil {ready : List Job} (hready : Ready s queue now ready) (h : WellFormed s) (batchSize : Int) :
    ready.take (max batchSize 0).toNat = [] ↔ NothingToLease s now queue batchSize := by
  rw [List.take_eq_nil_iff, NothingToLease]
  refine or_congr (by omega) ?_
  rw [List.eq_nil_iff_forall_not_mem]
  constructor
  · intro hnone id job hjob hdue
    by_contra hnot
    have hid := h.jobId id job hjob
    exact hnone job ((hready.complete job).mpr ⟨by rw [hid]; exact hjob, hdue, hnot⟩)
  · intro hall job hmem
    obtain ⟨hjob, hdue, hnot⟩ := (hready.complete job).mp hmem
    exact hnot (hall job.id job hjob hdue)

section Spec

variable {leaseSeconds batchSize : Int} {ordering : QueueOrdering} {ready : List Job}

/-- The sweep leaves a ready job as it is. -/
theorem swept_ready (h : WellFormed s) (hready : Ready s queue now ready) {job : Job} (hmem : job ∈ ready) :
    (sweepDeadlines s now queue).jobs job.id = some job :=
  ((swept_due h).mpr ((hready.complete job).mp hmem)).1

/-- The job map that a lease leaves: the missed deadlines dead-lettered, the first ready jobs running. -/
theorem lease_jobs_ready (h : WellFormed s) (hready : Ready s queue now ready)
    (hret : (leaseJobsBatchWithOrdering s now queue workerId leaseSeconds batchSize ordering).1 ≠ .panic) :
    (leaseJobsBatchWithOrdering s now queue workerId leaseSeconds batchSize ordering).2.jobs =
        mapAt (leasedJob now (now + leaseSeconds * Chrono.nanosPerSecond) workerId)
          ((ready.take (max batchSize 0).toNat).map (·.id)) (sweepDeadlines s now queue).jobs ∧
      OnlyJobs s (leaseJobsBatchWithOrdering s now queue workerId leaseSeconds batchSize ordering).2 := by
  obtain ⟨ready', hready', hcands⟩ := candidates_ready h queue now batchSize
  cases hready.unique hready'
  obtain ⟨t, ht, hjobs, honly⟩ := lease_jobs queue workerId leaseSeconds batchSize ordering hret
  refine ⟨?_, honly⟩
  rw [hjobs, ← (sweep_jobs now queue (expiredDeadlines s now queue) s).1, hcands, List.map_map]
  rcases ht with hnil | hadd
  · rw [hcands, List.map_eq_nil_iff] at hnil
    rw [hnil]
    simp [sweepDeadlines]
  · rw [Chrono.addSeconds_eq hadd]
    rfl

/-- The jobs that a lease hands out: the first ready jobs, in their order. -/
theorem lease_returned (h : WellFormed s) (hready : Ready s queue now ready)
    (hret : (leaseJobsBatchWithOrdering s now queue workerId leaseSeconds batchSize ordering).1 ≠ .panic) :
    (leaseJobsBatchWithOrdering s now queue workerId leaseSeconds batchSize ordering).1 =
      .ok ((ready.take (max batchSize 0).toNat).map
        (leasedJob now (now + leaseSeconds * Chrono.nanosPerSecond) workerId)) := by
  obtain ⟨ready', hready', hcands⟩ := candidates_ready h queue now batchSize
  cases hready.unique hready'
  revert hret
  unfold leaseJobsBatchWithOrdering
  simp only [hcands, List.isEmpty_map]
  split
  · rename_i hempty
    intro _
    rw [List.isEmpty_iff.mp hempty, List.map_nil]
  · cases hadd : Chrono.addSeconds now leaseSeconds with
    | none => intro hret; exact absurd rfl hret
    | some t =>
        intro _
        simp only [leaseEach_leased, InnerState.indexRemove_jobs, List.filterMap_map]
        rw [Chrono.addSeconds_eq hadd, ← List.filterMap_eq_map]
        refine congrArg _ (List.filterMap_congr fun job hjob => ?_)
        simp [swept_ready h hready (List.mem_of_mem_take hjob)]

/-- A lease that comes back meets its specification. -/
theorem lease_spec (h : WellFormed s) (hready : Ready s queue now ready)
    (hret : (leaseJobsBatchWithOrdering s now queue workerId leaseSeconds batchSize ordering).1 ≠ .panic) :
    LeaseSpec s now queue workerId leaseSeconds batchSize ready
      (leaseJobsBatchWithOrdering s now queue workerId leaseSeconds batchSize ordering) := by
  obtain ⟨hjobs, honly⟩ := lease_jobs_ready h hready hret
  have hsweep := (sweep_jobs now queue (expiredDeadlines s now queue) s).1
  have hqueue : OnlyQueue queue s
      (leaseJobsBatchWithOrdering s now queue workerId leaseSeconds batchSize ordering).2 :=
    lease_onlyQueue leaseSeconds batchSize ordering
  have hmem {job : Job} (hjob : job ∈ ready.take (max batchSize 0).toNat) : job ∈ ready := List.mem_of_mem_take hjob
  refine ⟨lease_returned h hready hret, hready.ids_nodup.sublist ((List.take_sublist _ _).map _), ?_, ?_, ?_,
    hqueue.queues, ⟨honly.attempts, honly.attemptCounts⟩, honly.archive, hqueue.streams⟩
  · intro job hjob
    rw [hjobs, mapAt_of_mem (List.mem_map_of_mem hjob), swept_ready h hready (hmem hjob), Option.map_some]
  · intro id job hjob hdue hmissed
    have hid := h.jobId id job hjob
    have hnot : id ∉ (ready.take (max batchSize 0).toNat).map (·.id) := by
      intro hin
      obtain ⟨job', hjob', rfl⟩ := List.mem_map.mp hin
      obtain ⟨hstored, _, hintime⟩ := (hready.complete job').mp (hmem hjob')
      rw [hjob] at hstored
      cases hstored
      exact hintime hmissed
    obtain ⟨d, hd, hlt⟩ := hmissed
    rw [hjobs, mapAt_of_not_mem hnot, sweepDeadlines, hsweep, mapAt_of_mem, hjob, Option.map_some]
    exact (mem_expiredDeadlines h).mpr ⟨job, d, hjob, hdue.1, hdue.2.1, hdue.2.2, hd, hlt⟩
  · intro id hout hnot
    rw [hjobs, mapAt_of_not_mem hnot, sweepDeadlines, hsweep, mapAt_of_not_mem]
    intro hin
    obtain ⟨job, d, hjob, hq, hst, hrun, hd, hlt⟩ := (mem_expiredDeadlines h).mp hin
    exact hout job hjob ⟨hq, hst, hrun⟩ ⟨d, hd, hlt⟩

end Spec

/-- **The lease specification.** In every reachable state a lease dead-letters the due jobs that missed their deadline,
    hands out the first of the others in the order of priority, `run_at`, `created_at` and id, and leaves everything
    else alone, unless there is a job to lease and the lease's end cannot be represented. -/
theorem lease_spec_iff (h : backendSystem.Reachable s) (now : DateTime) (queue workerId : String)
    (leaseSeconds batchSize : Int) (ordering : QueueOrdering) :
    (∃ ready, Ready s queue now ready ∧ LeaseSpec s now queue workerId leaseSeconds batchSize ready
        (leaseJobsBatchWithOrdering s now queue workerId leaseSeconds batchSize ordering)) ↔
      NothingToLease s now queue batchSize ∨ (Chrono.addSeconds now leaseSeconds).isSome := by
  have hwf := (backend_invariants h).1
  obtain ⟨ready, hready, hcands⟩ := candidates_ready hwf queue now batchSize
  have hreturns : (leaseJobsBatchWithOrdering s now queue workerId leaseSeconds batchSize ordering).1 ≠ .panic ↔
      NothingToLease s now queue batchSize ∨ (Chrono.addSeconds now leaseSeconds).isSome := by
    rw [lease_returns, hcands, List.map_eq_nil_iff, take_ready_eq_nil hready hwf]
  rw [← hreturns]
  constructor
  · rintro ⟨_, _, hspec⟩ hpanic
    have hok := hspec.returned
    rw [hpanic] at hok
    cases hok
  · intro hret
    exact ⟨ready, hready, lease_spec hwf hready hret⟩

/-- A lease of two jobs takes the one of the higher priority, and of two that tie up to their ids the lower id. The
    deadline of a third job has passed, and the job of the other queue stays where it is. -/
theorem lease_spec_iff_thirty :
    (∃ ready, Ready twoQueues "emails" 20 ready ∧ LeaseSpec twoQueues 20 "emails" "w1" 30 2 ready
      (leaseJobsBatchWithOrdering twoQueues 20 "emails" "w1" 30 2 .fifo)) ∧
    (leaseJobsBatchWithOrdering twoQueues 20 "emails" "w1" 30 2 .fifo).1 =
      .ok (([11, 7].filterMap twoQueues.jobs).map (leasedJob 20 30000000020 "w1")) ∧
    [7, 8, 9, 10, 11].map (fun id =>
      ((leaseJobsBatchWithOrdering twoQueues 20 "emails" "w1" 30 2 .fifo).2.jobs id).map (·.status)) =
        [some "running", some "queued", some "dlq", some "queued", some "running"] :=
  ⟨(lease_spec_iff (reachable_jobs twoQueues_reachable.1) 20 "emails" "w1" 30 2 .fifo).mpr (Or.inr (by decide)),
    by decide, by decide⟩

/-- The store with one queued job. -/
def oneQueued : InnerState := (enqueue InnerState.init 0 7 [] welcomeEmail).2

theorem oneQueued_reachable : memorySystem.Reachable oneQueued :=
  (enqueue_reachable (.start rfl) enumerates_nil 0 7 welcomeEmail ⟨rfl, rfl⟩ rfl).1

/-- A lease of `i64::MAX` seconds panics: it returns no job, and the job has left the index of its queue. -/
theorem lease_spec_fails :
    backendSystem.Reachable oneQueued ∧
      (leaseJobsBatchWithOrdering oneQueued 3 "emails" "w1" 9223372036854775807 10 .fifo).1 = .panic ∧
      ¬∃ ready, Ready oneQueued "emails" 3 ready ∧ LeaseSpec oneQueued 3 "emails" "w1" 9223372036854775807 10 ready
        (leaseJobsBatchWithOrdering oneQueued 3 "emails" "w1" 9223372036854775807 10 .fifo) := by
  have hpanic : (leaseJobsBatchWithOrdering oneQueued 3 "emails" "w1" 9223372036854775807 10 .fifo).1 = .panic := by
    decide
  refine ⟨reachable_jobs oneQueued_reachable, hpanic, ?_⟩
  rintro ⟨ready, _, hspec⟩
  have hok := hspec.returned
  rw [hpanic] at hok
  cases hok

end Azums.Memory
