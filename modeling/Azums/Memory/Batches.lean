import Azums.Memory.Leasing

/-!
# `Memory.Batches` — leases one after the other

Two leases by one clock compose. On one queue the second finds what the first has left: leasing `a` jobs and then `b` is
leasing `a + b`, and a second lease by another worker differs in `locked_by` only. On two queues they commute.

`leases_compose_iff` says exactly when: whenever the leases come back, which by `Memory.Leasing` they do unless there is
a job to lease and the end of the lease is outside `chrono`'s range.
-/

namespace Azums.Memory

open Function (update)

variable {s s' t : InnerState} {now : DateTime} {queue workerId : String} {leaseSeconds batchSize : Int}
  {ordering : QueueOrdering} {ready : List Job}

/-- The job under another worker. -/
def heldBy (workerId : String) (job : Job) : Job := { job with lockedBy := some workerId }

/-- Leasing `a` jobs and then `b` hands out and leaves what leasing `a + b` does. If another worker makes the second
    lease, it gets the same jobs in its own name, and none of those that the first has got. -/
def Splits (s : InnerState) (now : DateTime) (queue workerId workerId' : String) (leaseSeconds a b : Int)
    (ordering : QueueOrdering) : Prop :=
  ∃ first second s₁ s₂,
    leaseJobsBatchWithOrdering s now queue workerId leaseSeconds a ordering = (.ok first, s₁) ∧
    leaseJobsBatchWithOrdering s₁ now queue workerId leaseSeconds b ordering = (.ok second, s₂) ∧
    leaseJobsBatchWithOrdering s now queue workerId leaseSeconds (a + b) ordering = (.ok (first ++ second), s₂) ∧
    leaseJobsBatchWithOrdering s₁ now queue workerId' leaseSeconds b ordering =
      (.ok (second.map (heldBy workerId')),
        { s₂ with jobs := mapAt (heldBy workerId') (second.map (·.id)) s₂.jobs }) ∧
    List.Disjoint (first.map (·.id)) (second.map (·.id))

/-- The arguments of a lease. -/
structure LeaseCall where
  queue : String
  workerId : String
  leaseSeconds : Int
  batchSize : Int
  ordering : QueueOrdering

namespace LeaseCall

/-- The lease with these arguments. -/
def run (call : LeaseCall) (now : DateTime) (s : InnerState) : Outcome (List Job) × InnerState :=
  leaseJobsBatchWithOrdering s now call.queue call.workerId call.leaseSeconds call.batchSize call.ordering

end LeaseCall

/-- Two leases hand out the same jobs in either order, and leave the same state. -/
def Commute (s : InnerState) (now : DateTime) (call call' : LeaseCall) : Prop :=
  ∃ leased leased' s₁ s₂ t,
    call.run now s = (.ok leased, s₁) ∧ call'.run now s₁ = (.ok leased', t) ∧
    call'.run now s = (.ok leased', s₂) ∧ call.run now s₂ = (.ok leased, t)

/-- The lease comes back: there is nothing to lease, or `chrono` can compute when the lease ends. -/
def CanLease (s : InnerState) (now : DateTime) (queue : String) (leaseSeconds batchSize : Int) : Prop :=
  NothingToLease s now queue batchSize ∨ (Chrono.addSeconds now leaseSeconds).isSome

/-! ## States with the same jobs -/

/-- The index follows the queued jobs, so states with the same queued jobs have the same indexes. -/
theorem queuedJobs_ext (hs : WellFormed s) (ht : WellFormed t)
    (hjobs : ∀ q e, QueuedAs s.jobs q e ↔ QueuedAs t.jobs q e)
    (hsome : ∀ q, (s.queuedJobs q).isSome = (t.queuedJobs q).isSome) : s.queuedJobs = t.queuedJobs := by
  funext q
  have hindex : s.index q = t.index q := OrdSet.ext_mem fun e => by rw [hs.indexed, ht.indexed, hjobs]
  unfold InnerState.index at hindex
  have hq := hsome q
  cases hsq : s.queuedJobs q with
  | none =>
      rw [hsq] at hq
      cases htq : t.queuedJobs q with
      | none => rfl
      | some _ => rw [htq] at hq; cases hq
  | some ix =>
      rw [hsq] at hq hindex
      cases htq : t.queuedJobs q with
      | none => rw [htq] at hq; cases hq
      | some _ =>
          rw [htq] at hindex
          exact congrArg some hindex

/-- What a lease leaves alone but for the jobs and the contents of the indexes. -/
structure SameRest (s s' : InnerState) : Prop where
  hasIndex : ∀ q, (s'.queuedJobs q).isSome = (s.queuedJobs q).isSome
  archive : s'.archive = s.archive
  attempts : s'.attempts = s.attempts
  attemptCounts : s'.attemptCounts = s.attemptCounts
  streams : s'.streams = s.streams
  streamOffsets : s'.streamOffsets = s.streamOffsets

namespace SameRest

theorem refl (s : InnerState) : SameRest s s := ⟨fun _ => rfl, rfl, rfl, rfl, rfl, rfl⟩

theorem trans (h : SameRest s t) (h' : SameRest t s') : SameRest s s' :=
  ⟨fun q => (h'.hasIndex q).trans (h.hasIndex q), h'.archive.trans h.archive, h'.attempts.trans h.attempts,
    h'.attemptCounts.trans h.attemptCounts, h'.streams.trans h.streams, h'.streamOffsets.trans h.streamOffsets⟩

theorem setJob (s : InnerState) (id : Uuid) (job : Job) : SameRest s (s.setJob id job) :=
  ⟨fun _ => rfl, rfl, rfl, rfl, rfl, rfl⟩

theorem indexRemove (s : InnerState) (queue : String) (es : List QueueEntry) : SameRest s (s.indexRemove queue es) := by
  unfold InnerState.indexRemove
  cases hix : s.queuedJobs queue with
  | none => exact refl s
  | some ix =>
      refine ⟨fun q => ?_, rfl, rfl, rfl, rfl, rfl⟩
      by_cases hq : q = queue
      · subst hq
        show (update s.queuedJobs q (some (ix.eraseAll es)) q).isSome = _
        rw [Function.update_self, hix]
        rfl
      · exact congrArg Option.isSome (Function.update_of_ne hq ..)

theorem lease (s : InnerState) (now : DateTime) (queue workerId : String) (leaseSeconds batchSize : Int)
    (ordering : QueueOrdering) :
    SameRest s (leaseJobsBatchWithOrdering s now queue workerId leaseSeconds batchSize ordering).2 :=
  lease_keeps refl (fun _ _ _ => trans) setJob (fun s => indexRemove s queue) s leaseSeconds batchSize ordering

/-- Two states that differ from a third in jobs and indexes only, and have the same indexes, differ in jobs only. -/
theorem eq_of_queuedJobs (h : SameRest s t) (h' : SameRest s s') (hqueued : t.queuedJobs = s'.queuedJobs) :
    t = { s' with jobs := t.jobs } := by
  have harchive := h.archive.trans h'.archive.symm
  have hattempts := h.attempts.trans h'.attempts.symm
  have hcounts := h.attemptCounts.trans h'.attemptCounts.symm
  have hstreams := h.streams.trans h'.streams.symm
  have hoffsets := h.streamOffsets.trans h'.streamOffsets.symm
  cases t
  simp_all

/-- If they have the same jobs, they are the same. -/
theorem eq_of_jobs (h : SameRest s t) (h' : SameRest s s') (ht : WellFormed t) (hs' : WellFormed s')
    (hjobs : t.jobs = s'.jobs) : t = s' := by
  rw [h.eq_of_queuedJobs h' (queuedJobs_ext ht hs' (fun q e => by rw [hjobs])
    fun q => (h.hasIndex q).trans (h'.hasIndex q).symm), hjobs]

end SameRest

/-! ## Two leases on one queue -/

/-- When a lease comes back. -/
theorem lease_ne_panic_iff (h : WellFormed s) (workerId : String) (ordering : QueueOrdering) :
    (leaseJobsBatchWithOrdering s now queue workerId leaseSeconds batchSize ordering).1 ≠ .panic ↔
      CanLease s now queue leaseSeconds batchSize := by
  obtain ⟨ready, hready, hcands⟩ := candidates_ready h queue now batchSize
  rw [lease_returns, hcands, List.map_eq_nil_iff, take_ready_eq_nil hready h, CanLease]

/-- A lease that comes back has worked on its queue and has handed out the first ready jobs. -/
structure Leases (s : InnerState) (now : DateTime) (queue workerId : String) (leaseSeconds batchSize : Int)
    (ready : List Job) (leased : List Job) (s' : InnerState) : Prop where
  leased : leased = (ready.take (max batchSize 0).toNat).map
    (leasedJob now (now + leaseSeconds * Chrono.nanosPerSecond) workerId)
  jobs : s'.jobs = mapAt (leasedJob now (now + leaseSeconds * Chrono.nanosPerSecond) workerId)
    ((ready.take (max batchSize 0).toNat).map (·.id)) (sweepDeadlines s now queue).jobs
  wellFormed : WellFormed s'
  rest : SameRest s s'

theorem lease_leases (h : WellFormed s) (hready : Ready s queue now ready)
    (hcan : CanLease s now queue leaseSeconds batchSize) (workerId : String) (ordering : QueueOrdering) :
    ∃ leased s', leaseJobsBatchWithOrdering s now queue workerId leaseSeconds batchSize ordering = (.ok leased, s') ∧
      Leases s now queue workerId leaseSeconds batchSize ready leased s' := by
  have hret := (lease_ne_panic_iff h workerId ordering).mpr hcan
  refine ⟨_, _, Prod.ext (lease_returned h hready hret) rfl, rfl, (lease_jobs_ready h hready hret).1, ?_, .lease ..⟩
  exact leaseJobsBatchWithOrdering_wellFormed h queue workerId leaseSeconds batchSize ordering hret

namespace Leases

variable {leased : List Job}

/-- The jobs handed out run afterwards. -/
theorem running (h : Leases s now queue workerId leaseSeconds batchSize ready leased s') {job : Job} {id : Uuid}
    (hin : id ∈ (ready.take (max batchSize 0).toNat).map (·.id)) (hjob : s'.jobs id = some job) :
    job.status = "running" := by
  rw [h.jobs, mapAt_of_mem hin, Option.map_eq_some_iff] at hjob
  obtain ⟨before, _, rfl⟩ := hjob
  rfl

/-- The jobs queued afterwards are those that the sweep left queued and that were not handed out. -/
theorem queuedAs (h : Leases s now queue workerId leaseSeconds batchSize ready leased s') {q : String}
    {e : QueueEntry} :
    QueuedAs s'.jobs q e ↔ e.id ∉ (ready.take (max batchSize 0).toNat).map (·.id) ∧
      QueuedAs (sweepDeadlines s now queue).jobs q e := by
  by_cases hin : e.id ∈ (ready.take (max batchSize 0).toNat).map (·.id)
  · refine ⟨?_, fun hout => absurd hin hout.1⟩
    rintro ⟨job, hjob, _, hst, _⟩
    rw [h.running hin hjob] at hst
    exact absurd hst (by decide)
  · rw [QueuedAs, QueuedAs, h.jobs, mapAt_of_not_mem hin]
    exact ⟨fun hqueued => ⟨hin, hqueued⟩, And.right⟩

/-- The due jobs afterwards are the ready jobs that were not handed out. -/
theorem due_after (hwf : WellFormed s) (hready : Ready s queue now ready)
    (h : Leases s now queue workerId leaseSeconds batchSize ready leased s') {job : Job} :
    s'.jobs job.id = some job ∧ Due queue now job ↔ job ∈ ready.drop (max batchSize 0).toNat := by
  have hsplit := List.take_append_drop (max batchSize 0).toNat ready
  have hnd := hready.ids_nodup
  rw [← hsplit, List.map_append, List.nodup_append] at hnd
  constructor
  · rintro ⟨hjob, hdue⟩
    have hnot : job.id ∉ (ready.take (max batchSize 0).toNat).map (·.id) := by
      intro hin
      have hrun := h.running hin hjob
      rw [hdue.2.1] at hrun
      exact absurd hrun (by decide)
    rw [h.jobs, mapAt_of_not_mem hnot] at hjob
    have hmem := (hready.complete job).mpr ((swept_due hwf).mp ⟨hjob, hdue⟩)
    rw [← hsplit, List.mem_append] at hmem
    exact hmem.resolve_left fun hin => hnot (List.mem_map_of_mem hin)
  · intro hdrop
    have hmem := List.mem_of_mem_drop hdrop
    have hnot : job.id ∉ (ready.take (max batchSize 0).toNat).map (·.id) :=
      fun hin => hnd.2.2 _ hin _ (List.mem_map_of_mem hdrop) rfl
    rw [h.jobs, mapAt_of_not_mem hnot]
    exact ⟨swept_ready hwf hready hmem, ((hready.complete job).mp hmem).2.1⟩

/-- The next lease on the queue finds the ready jobs that are left. -/
theorem ready_after (hwf : WellFormed s) (hready : Ready s queue now ready)
    (h : Leases s now queue workerId leaseSeconds batchSize ready leased s') :
    Ready s' queue now (ready.drop (max batchSize 0).toNat) := by
  refine ⟨hready.sorted.sublist (List.drop_sublist _ _), fun job => ?_⟩
  rw [← h.due_after hwf hready]
  constructor
  · rintro ⟨hjob, hdue⟩
    have hmem := List.mem_of_mem_drop ((h.due_after hwf hready).mp ⟨hjob, hdue⟩)
    exact ⟨hjob, hdue, ((hready.complete job).mp hmem).2.2⟩
  · rintro ⟨hjob, hdue, _⟩
    exact ⟨hjob, hdue⟩

/-- It has nothing to sweep. -/
theorem sweep_after (hwf : WellFormed s) (hready : Ready s queue now ready)
    (h : Leases s now queue workerId leaseSeconds batchSize ready leased s') : sweepDeadlines s' now queue = s' := by
  have hnone : expiredDeadlines s' now queue = [] := by
    rw [← List.map_eq_nil_iff (f := (·.id)), List.eq_nil_iff_forall_not_mem]
    intro id hin
    obtain ⟨job, d, hjob, hqueue, hst, hrun, hd, hlt⟩ := (mem_expiredDeadlines h.wellFormed).mp hin
    have hid := h.wellFormed.jobId id job hjob
    have hdrop := (h.due_after hwf hready).mp ⟨by rw [hid]; exact hjob, hqueue, hst, hrun⟩
    exact ((hready.complete job).mp (List.mem_of_mem_drop hdrop)).2.2 ⟨d, hd, hlt⟩
  rw [sweepDeadlines, hnone, List.foldl_nil]

/-- It comes back if one lease of both sizes does. -/
theorem canLease_after (hwf : WellFormed s) (hready : Ready s queue now ready) {a b : Int} (ha : 0 ≤ a)
    (h : Leases s now queue workerId leaseSeconds a ready leased s')
    (hcan : CanLease s now queue leaseSeconds (a + b)) : CanLease s' now queue leaseSeconds b := by
  rcases hcan with hnothing | hend
  · left
    rw [← take_ready_eq_nil hready hwf, List.take_eq_nil_iff] at hnothing
    rw [← take_ready_eq_nil (h.ready_after hwf hready) h.wellFormed, List.take_eq_nil_iff]
    rcases hnothing with hsize | hempty
    · left
      omega
    · right
      rw [hempty, List.drop_nil]
  · exact Or.inr hend

end Leases

theorem CanLease.mono {a b : Int} (hab : b ≤ a) (h : CanLease s now queue leaseSeconds a) :
    CanLease s now queue leaseSeconds b :=
  h.imp_left fun hnothing => hnothing.imp_left fun ha => hab.trans ha

theorem mapAt_append {f : Job → Job} (hf : ∀ job, f (f job) = f job) (ids ids' : List Uuid) (m : Uuid → Option Job) :
    mapAt f ids' (mapAt f ids m) = mapAt f (ids ++ ids') m := by
  funext id
  by_cases h : id ∈ ids <;> by_cases h' : id ∈ ids' <;> simp [mapAt, h, h', Function.comp_def, hf]

/-- **Splitting a batch.** -/
theorem splits_of_canLease (hwf : WellFormed s) (now : DateTime) (queue workerId workerId' : String)
    (ordering : QueueOrdering) {a b : Int} (ha : 0 ≤ a) (hb : 0 ≤ b)
    (hcan : CanLease s now queue leaseSeconds (a + b)) :
    Splits s now queue workerId workerId' leaseSeconds a b ordering := by
  obtain ⟨ready, hready, _⟩ := candidates_ready hwf queue now (a + b)
  have hsize : (max (a + b) 0).toNat = (max a 0).toNat + (max b 0).toNat := by omega
  have hcan₀ : CanLease s now queue leaseSeconds a := hcan.mono (by omega)
  obtain ⟨first, s₁, hfirst, h₁⟩ := lease_leases hwf hready hcan₀ workerId ordering
  have hready₁ := h₁.ready_after hwf hready
  have hcan₁ := h₁.canLease_after hwf hready ha hcan
  have hswept := h₁.sweep_after hwf hready
  obtain ⟨second, s₂, hsecond, h₂⟩ := lease_leases h₁.wellFormed hready₁ hcan₁ workerId ordering
  obtain ⟨third, s₃, hthird, h₃⟩ := lease_leases h₁.wellFormed hready₁ hcan₁ workerId' ordering
  obtain ⟨whole, s₄, hwhole, h₄⟩ := lease_leases hwf hready hcan workerId ordering
  have hids : second.map (·.id) = ((ready.drop (max a 0).toNat).take (max b 0).toNat).map (·.id) := by
    rw [h₂.leased, List.map_map]
    rfl
  refine ⟨first, second, s₁, s₂, hfirst, hsecond, ?_, ?_, ?_⟩
  · -- the whole batch is the first part and then the second
    have hjobs : whole = first ++ second := by
      rw [h₄.leased, h₁.leased, h₂.leased, hsize, List.take_add, List.map_append]
    have hstate : s₄ = s₂ := by
      refine h₄.rest.eq_of_jobs (h₁.rest.trans h₂.rest) h₄.wellFormed h₂.wellFormed ?_
      rw [h₄.jobs, h₂.jobs, hswept, h₁.jobs, mapAt_append (leasedJob_leasedJob _ workerId), hsize, List.take_add,
        List.map_append]
    rw [hwhole, hjobs, hstate]
  · -- another worker gets the jobs of the second part
    have hjobs : third = second.map (heldBy workerId') := by
      rw [h₃.leased, h₂.leased, List.map_map]
      rfl
    have hqueued : s₃.queuedJobs = s₂.queuedJobs := by
      refine queuedJobs_ext h₃.wellFormed h₂.wellFormed (fun q e => ?_)
        fun q => (h₃.rest.hasIndex q).trans (h₂.rest.hasIndex q).symm
      rw [h₃.queuedAs, h₂.queuedAs]
    have hmap : s₃.jobs = mapAt (heldBy workerId') (second.map (·.id)) s₂.jobs := by
      rw [h₃.jobs, h₂.jobs, hids]
      funext id
      by_cases hin : id ∈ ((ready.drop (max a 0).toNat).take (max b 0).toNat).map (·.id)
      · rw [mapAt_of_mem hin, mapAt_of_mem hin, mapAt_of_mem hin, Option.map_map]
        rfl
      · rw [mapAt_of_not_mem hin, mapAt_of_not_mem hin, mapAt_of_not_mem hin]
    rw [hthird, hjobs, ← hmap, ← h₃.rest.eq_of_queuedJobs h₂.rest hqueued]
  · have hfirstIds : first.map (·.id) = (ready.take (max a 0).toNat).map (·.id) := by
      rw [h₁.leased, List.map_map]
      rfl
    have hnd := hready.ids_nodup
    rw [← List.take_append_drop (max a 0).toNat ready, List.map_append, List.nodup_append] at hnd
    rw [hfirstIds, hids]
    intro id hin hin'
    exact hnd.2.2 id hin id (List.map_subset _ (List.take_subset _ _) hin') rfl

/-! ## Two leases on two queues -/

namespace Leases

variable {leased : List Job} {id : Uuid}

/-- A lease changes jobs of its own queue only, and they stay in it. -/
theorem entry (hwf : WellFormed s) (hready : Ready s queue now ready)
    (h : Leases s now queue workerId leaseSeconds batchSize ready leased s') (id : Uuid) :
    s'.jobs id = s.jobs id ∨ ∃ job job', s.jobs id = some job ∧ s'.jobs id = some job' ∧ job.queue = queue ∧
      job'.queue = queue := by
  have hsweep := (sweep_jobs now queue (expiredDeadlines s now queue) s).1
  by_cases hin : id ∈ (ready.take (max batchSize 0).toNat).map (·.id)
  · obtain ⟨job, hmem, rfl⟩ := List.mem_map.mp hin
    have hready' := List.mem_of_mem_take hmem
    obtain ⟨hjob, ⟨hqueue, _⟩, _⟩ := (hready.complete job).mp hready'
    refine Or.inr ⟨job, leasedJob now (now + leaseSeconds * Chrono.nanosPerSecond) workerId job, hjob, ?_, hqueue,
      hqueue⟩
    rw [h.jobs, mapAt_of_mem hin, swept_ready hwf hready hready', Option.map_some]
  · rw [h.jobs, mapAt_of_not_mem hin, sweepDeadlines, hsweep]
    by_cases hexp : id ∈ (expiredDeadlines s now queue).map (·.id)
    · obtain ⟨job, _, hjob, hqueue, _⟩ := (mem_expiredDeadlines hwf).mp hexp
      refine Or.inr ⟨job, deadlineExceeded now job, hjob, ?_, hqueue, hqueue⟩
      rw [mapAt_of_mem hexp, hjob, Option.map_some]
    · exact Or.inl (mapAt_of_not_mem hexp)

/-- A record of another queue, or none, stays as it is. -/
theorem elsewhere (hwf : WellFormed s) (hready : Ready s queue now ready)
    (h : Leases s now queue workerId leaseSeconds batchSize ready leased s')
    (hout : ∀ job, s.jobs id = some job → job.queue ≠ queue) : s'.jobs id = s.jobs id :=
  (h.entry hwf hready id).resolve_right fun ⟨job, _, hjob, _, hqueue, _⟩ => hout job hjob hqueue

/-- The jobs of another queue are the same before and after. -/
theorem other_queue (hwf : WellFormed s) (hready : Ready s queue now ready)
    (h : Leases s now queue workerId leaseSeconds batchSize ready leased s') {job : Job} (hq : job.queue ≠ queue) :
    s'.jobs id = some job ↔ s.jobs id = some job := by
  rcases h.entry hwf hready id with hsame | ⟨job₁, job₂, h₁, h₂, hq₁, hq₂⟩
  · rw [hsame]
  · rw [h₁, h₂]
    constructor
    · intro heq
      exact absurd (Option.some.inj heq ▸ hq₂) hq
    · intro heq
      exact absurd (Option.some.inj heq ▸ hq₁) hq

/-- What is ready in another queue stays ready. -/
theorem ready_elsewhere (hwf : WellFormed s) (hready : Ready s queue now ready)
    (h : Leases s now queue workerId leaseSeconds batchSize ready leased s') {queue' : String} {ready' : List Job}
    (hq : queue' ≠ queue) (hready' : Ready s queue' now ready') : Ready s' queue' now ready' := by
  refine ⟨hready'.sorted, fun job => ?_⟩
  rw [hready'.complete]
  constructor
  · rintro ⟨hjob, hdue, hnot⟩
    exact ⟨(h.other_queue hwf hready (hdue.1 ▸ hq)).mpr hjob, hdue, hnot⟩
  · rintro ⟨hjob, hdue, hnot⟩
    exact ⟨(h.other_queue hwf hready (hdue.1 ▸ hq)).mp hjob, hdue, hnot⟩

theorem canLease_elsewhere (hwf : WellFormed s) (hready : Ready s queue now ready)
    (h : Leases s now queue workerId leaseSeconds batchSize ready leased s') {queue' : String} (hq : queue' ≠ queue)
    {leaseSeconds' n : Int} (hcan : CanLease s now queue' leaseSeconds' n) :
    CanLease s' now queue' leaseSeconds' n := by
  refine hcan.imp_left fun hnothing => hnothing.imp_right fun hmissed => ?_
  intro id job hjob hdue
  exact hmissed id job ((h.other_queue hwf hready (hdue.1 ▸ hq)).mp hjob) hdue

/-- What a lease makes of an entry depends on the entry and on what is ready. -/
theorem congr_at {t' : InnerState} {leased' : List Job} (hs : WellFormed s) (ht : WellFormed t)
    (h : Leases s now queue workerId leaseSeconds batchSize ready leased s')
    (h' : Leases t now queue workerId leaseSeconds batchSize ready leased' t') (hid : s.jobs id = t.jobs id) :
    s'.jobs id = t'.jobs id := by
  have hexpired : id ∈ (expiredDeadlines s now queue).map (·.id) ↔
      id ∈ (expiredDeadlines t now queue).map (·.id) := by
    rw [mem_expiredDeadlines hs, mem_expiredDeadlines ht, hid]
  have hswept : (sweepDeadlines s now queue).jobs id = (sweepDeadlines t now queue).jobs id := by
    rw [sweepDeadlines, sweepDeadlines, (sweep_jobs now queue _ s).1, (sweep_jobs now queue _ t).1]
    simp only [mapAt, hexpired, hid]
  rw [h.jobs, h'.jobs]
  simp only [mapAt, hswept]

end Leases

/-- **Leases on two queues commute.** -/
theorem commute_of_canLease (hwf : WellFormed s) (now : DateTime) {call call' : LeaseCall}
    (hq : call.queue ≠ call'.queue) (hcan : CanLease s now call.queue call.leaseSeconds call.batchSize)
    (hcan' : CanLease s now call'.queue call'.leaseSeconds call'.batchSize) : Commute s now call call' := by
  obtain ⟨ready, hready, _⟩ := candidates_ready hwf call.queue now call.batchSize
  obtain ⟨ready', hready', _⟩ := candidates_ready hwf call'.queue now call'.batchSize
  obtain ⟨leased, s₁, he₁, h₁⟩ := lease_leases hwf hready hcan call.workerId call.ordering
  obtain ⟨leased', s₂, he₂, h₂⟩ := lease_leases hwf hready' hcan' call'.workerId call'.ordering
  have hready₁ := h₁.ready_elsewhere hwf hready hq.symm hready'
  have hready₂ := h₂.ready_elsewhere hwf hready' hq hready
  obtain ⟨again', t₁, he₃, h₃⟩ := lease_leases h₁.wellFormed hready₁ (h₁.canLease_elsewhere hwf hready hq.symm hcan')
    call'.workerId call'.ordering
  obtain ⟨again, t₂, he₄, h₄⟩ := lease_leases h₂.wellFormed hready₂ (h₂.canLease_elsewhere hwf hready' hq hcan)
    call.workerId call.ordering
  have hstate : t₁ = t₂ := by
    refine (h₁.rest.trans h₃.rest).eq_of_jobs (h₂.rest.trans h₄.rest) h₃.wellFormed h₄.wellFormed ?_
    funext id
    by_cases hmine : ∃ job, s.jobs id = some job ∧ job.queue = call.queue
    · -- a job of the first queue: only the first lease counts
      obtain ⟨job, hjob, hqueue⟩ := hmine
      have hbefore : s₂.jobs id = s.jobs id := h₂.elsewhere hwf hready' fun j hj => by
        rw [hjob] at hj
        cases hj
        exact hqueue ▸ hq
      have hlater : t₁.jobs id = s₁.jobs id := h₃.elsewhere h₁.wellFormed hready₁ fun j hj => by
        rcases h₁.entry hwf hready id with hsame | ⟨_, j', _, hj', _, hq'⟩
        · rw [hsame, hjob] at hj
          cases hj
          exact hqueue ▸ hq
        · rw [hj'] at hj
          cases hj
          exact hq' ▸ hq
      rw [hlater]
      exact h₁.congr_at hwf h₂.wellFormed h₄ hbefore.symm
    · push Not at hmine
      have hbefore : s₁.jobs id = s.jobs id := h₁.elsewhere hwf hready hmine
      have hlater : t₂.jobs id = s₂.jobs id := h₄.elsewhere h₂.wellFormed hready₂ fun j hj => by
        rcases h₂.entry hwf hready' id with hsame | ⟨_, j', _, hj', _, hq'⟩
        · exact hmine j (hsame ▸ hj)
        · rw [hj'] at hj
          cases hj
          exact hq' ▸ hq.symm
      rw [hlater]
      exact (h₂.congr_at hwf h₁.wellFormed h₃ hbefore.symm).symm
  refine ⟨leased, leased', s₁, s₂, t₁, he₁, ?_, he₂, ?_⟩
  · rw [h₂.leased, ← h₃.leased]
    exact he₃
  · rw [hstate, h₁.leased, ← h₄.leased]
    exact he₄

/-! ## Exactly when -/

/-- **Leases compose.** In every reachable state, leasing `a` jobs and then `b` is leasing `a + b`, and leases on two
    queues commute, exactly if the leases come back. -/
theorem leases_compose_iff (h : backendSystem.Reachable s) (now : DateTime) (queue workerId workerId' : String)
    (leaseSeconds : Int) (ordering : QueueOrdering) {a b : Int} (ha : 0 ≤ a) (hb : 0 ≤ b) (call call' : LeaseCall)
    (hq : call.queue ≠ call'.queue) :
    (Splits s now queue workerId workerId' leaseSeconds a b ordering ↔ CanLease s now queue leaseSeconds (a + b)) ∧
      (Commute s now call call' ↔ CanLease s now call.queue call.leaseSeconds call.batchSize ∧
        CanLease s now call'.queue call'.leaseSeconds call'.batchSize) := by
  have hwf := (backend_invariants h).1
  refine ⟨⟨?_, splits_of_canLease hwf now queue workerId workerId' ordering ha hb⟩, ?_, ?_⟩
  · rintro ⟨first, second, _, _, _, _, hwhole, _⟩
    refine (lease_ne_panic_iff hwf workerId ordering).mp ?_
    rw [hwhole]
    exact nofun
  · rintro ⟨leased, leased', _, _, _, hfirst, _, hfirst', _⟩
    constructor
    · refine (lease_ne_panic_iff hwf call.workerId call.ordering).mp ?_
      rw [show leaseJobsBatchWithOrdering s now call.queue call.workerId _ _ _ = _ from hfirst]
      exact nofun
    · refine (lease_ne_panic_iff hwf call'.workerId call'.ordering).mp ?_
      rw [show leaseJobsBatchWithOrdering s now call'.queue call'.workerId _ _ _ = _ from hfirst']
      exact nofun
  · rintro ⟨hcan, hcan'⟩
    exact commute_of_canLease hwf now hq hcan hcan'

/-- Three jobs of `emails` that are due and in time go to two leases of thirty seconds, and the leases of two queues
    commute, though the one of `emails` also sweeps a missed deadline. -/
theorem leases_compose_iff_thirty :
    Splits twoQueues 20 "emails" "w1" "w2" 30 1 2 .fifo ∧
      Commute twoQueues 20
        { queue := "emails", workerId := "w1", leaseSeconds := 30, batchSize := 10, ordering := .fifo }
        { queue := "reports", workerId := "w2", leaseSeconds := 60, batchSize := 10, ordering := .fifo } := by
  obtain ⟨hsplit, hcommute⟩ := leases_compose_iff (reachable_jobs twoQueues_reachable.1) 20 "emails" "w1" "w2" 30 .fifo
    (show (0 : Int) ≤ 1 by decide) (show (0 : Int) ≤ 2 by decide)
    { queue := "emails", workerId := "w1", leaseSeconds := 30, batchSize := 10, ordering := .fifo }
    { queue := "reports", workerId := "w2", leaseSeconds := 60, batchSize := 10, ordering := .fifo } (by decide)
  exact ⟨hsplit.mpr (Or.inr (by decide)), hcommute.mpr ⟨Or.inr (by decide), Or.inr (by decide)⟩⟩

/-- Two leases of one job each, for `i64::MAX` seconds: the one lease of two jobs panics and returns no list. -/
theorem splits_fails : backendSystem.Reachable oneQueued ∧
    ¬Splits oneQueued 3 "emails" "w1" "w2" 9223372036854775807 1 1 .fifo := by
  refine ⟨reachable_jobs oneQueued_reachable, ?_⟩
  rintro ⟨first, second, _, _, hfirst, _⟩
  have hpanic : (leaseJobsBatchWithOrdering oneQueued 3 "emails" "w1" 9223372036854775807 1 .fifo).1 = .panic := by
    decide
  rw [hfirst] at hpanic
  cases hpanic

end Azums.Memory
