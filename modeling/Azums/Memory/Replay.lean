import Azums.Memory.Leasing

/-!
# `Memory.Replay` — whether a replayed job gets to run

`replay_job` gives the copy a new id, a new `run_at` and no lock, and lets it keep the source's `deadline_at`. The lease
that follows sweeps the missed deadlines before it takes anything. `replay_runnable_iff` says what comes of the two
together: the copy is handed out exactly if the deadline it has inherited has not passed, and else the lease
dead-letters it.
-/

namespace Azums.Memory

variable {s : InnerState} {now : DateTime} {queue workerId : String} {newId jobId : Uuid} {src : Job}

/-- The copy that a replay without overrides enqueues. -/
def replayed (now : DateTime) (newId jobId : Uuid) (src : Job) : Job :=
  replayEntity now newId jobId src.queue now src

theorem replayJob_eq (hsrc : getJob s jobId = some src) :
    replayJob s now newId jobId none none = (.ok newId, insertQueued s (replayed now newId jobId src)) := by
  simp [replayJob, hsrc, replayed]

/-- The copy is due at once. -/
theorem replayed_due : Due src.queue now (replayed now newId jobId src) := ⟨rfl, rfl, le_refl now⟩

/-- The job map after the replay holds the copy. -/
theorem replayed_stored : (insertQueued s (replayed now newId jobId src)).jobs newId =
    some (replayed now newId jobId src) := by
  simp [insertQueued, replayed, replayEntity]

/-- What the lease that follows may hand out includes the copy, unless it has missed its deadline. -/
theorem replayed_ready {ready : List Job}
    (hready : Ready (insertQueued s (replayed now newId jobId src)) src.queue now ready) :
    replayed now newId jobId src ∈ ready ↔ ¬Missed now src := by
  rw [hready.complete]
  constructor
  · rintro ⟨_, _, hintime⟩
    exact hintime
  · intro hintime
    exact ⟨replayed_stored, replayed_due, hintime⟩

/-- A ready job under the id of the copy is the copy. -/
theorem ready_eq_replayed {ready : List Job} {job : Job}
    (hready : Ready (insertQueued s (replayed now newId jobId src)) src.queue now ready) (hmem : job ∈ ready)
    (hid : job.id = newId) : job = replayed now newId jobId src := by
  have hjob := ((hready.complete job).mp hmem).1
  rw [hid, replayed_stored] at hjob
  exact (Option.some.inj hjob).symm

/-- The lease returns the job `id` as running. -/
def HandsOut (result : Outcome (List Job) × InnerState) (workerId : String) (id : Uuid) : Prop :=
  ∃ leased job, result.1 = .ok leased ∧ job ∈ leased ∧ job.id = id ∧ job.status = "running" ∧
    job.lockedBy = some workerId

section Lease

variable {leaseSeconds : Int}

/-- The lease after a replay, of any size, meets its specification. -/
theorem replayed_lease (h : backendSystem.Reachable s) (hsrc : getJob s jobId = some src) (hfresh : Unused s newId)
    (hend : (Chrono.addSeconds now leaseSeconds).isSome) (workerId : String) (ordering : QueueOrdering) :
    ∃ ready, Ready (insertQueued s (replayed now newId jobId src)) src.queue now ready ∧
      ∀ batchSize, LeaseSpec (insertQueued s (replayed now newId jobId src)) now src.queue workerId leaseSeconds
        batchSize ready (leaseJobsBatchWithOrdering (insertQueued s (replayed now newId jobId src)) now src.queue
          workerId leaseSeconds batchSize ordering) := by
  have hwf : WellFormed (insertQueued s (replayed now newId jobId src)) := by
    have hreplay : WellFormed (replayJob s now newId jobId none none).2 :=
      replayJob_wellFormed (backend_invariants h).1 hfresh.1 hfresh.2 jobId none none
    rwa [replayJob_eq hsrc] at hreplay
  obtain ⟨ready, hready, _⟩ := candidates_ready hwf src.queue now 0
  exact ⟨ready, hready, fun batchSize => lease_spec hwf hready ((lease_returns _ _ _).mpr (Or.inr hend))⟩

/-- The copy is handed out by every large enough lease exactly if the source's deadline has not passed. -/
theorem replayed_handsOut (h : backendSystem.Reachable s) (hsrc : getJob s jobId = some src)
    (hfresh : Unused s newId) (hend : (Chrono.addSeconds now leaseSeconds).isSome) (workerId : String)
    (ordering : QueueOrdering) :
    (∃ enough, ∀ batchSize ≥ enough, HandsOut (leaseJobsBatchWithOrdering
      (insertQueued s (replayed now newId jobId src)) now src.queue workerId leaseSeconds batchSize ordering)
        workerId newId) ↔ ¬Missed now src := by
  obtain ⟨ready, hready, hspec⟩ := replayed_lease h hsrc hfresh hend workerId ordering
  constructor
  · rintro ⟨enough, hall⟩
    obtain ⟨leased, job, hok, hmem, hid, _, _⟩ := hall enough le_rfl
    rw [(hspec enough).returned, Outcome.ok.injEq] at hok
    rw [← hok, List.mem_map] at hmem
    obtain ⟨taken, htaken, rfl⟩ := hmem
    have hin := List.mem_of_mem_take htaken
    rw [ready_eq_replayed hready hin hid] at hin
    exact (replayed_ready hready).mp hin
  · intro hintime
    refine ⟨ready.length, fun batchSize hlarge => ?_⟩
    have hok := (hspec batchSize).returned
    -- a batch as long as the list of the ready jobs takes them all
    rw [List.take_of_length_le (by omega)] at hok
    exact ⟨_, _, hok, List.mem_map_of_mem ((replayed_ready hready).mpr hintime), rfl, rfl, rfl⟩

/-- **A replay and the lease after it.** Replaying a job returns the new id. A lease of the job's queue at the same
    instant returns the copy as running, given a large enough batch, if and only if the source has no deadline or its
    deadline has not passed; if it has, the lease moves the copy to the DLQ. -/
theorem replay_runnable_iff (h : backendSystem.Reachable s) (hsrc : getJob s jobId = some src)
    (hfresh : Unused s newId) (hend : (Chrono.addSeconds now leaseSeconds).isSome) (workerId : String)
    (ordering : QueueOrdering) :
    (replayJob s now newId jobId none none).1 = .ok newId ∧
      ((∃ enough, ∀ batchSize ≥ enough, HandsOut (leaseJobsBatchWithOrdering
          (replayJob s now newId jobId none none).2 now src.queue workerId leaseSeconds batchSize ordering)
          workerId newId) ↔ ∀ d, src.deadlineAt = some d → now ≤ d) ∧
      ((∃ d, src.deadlineAt = some d ∧ d < now) → ∀ batchSize, (leaseJobsBatchWithOrdering
          (replayJob s now newId jobId none none).2 now src.queue workerId leaseSeconds batchSize ordering).2.jobs
            newId = some (deadlineExceeded now (replayed now newId jobId src))) := by
  rw [replayJob_eq hsrc]
  refine ⟨rfl, ?_, ?_⟩
  · rw [replayed_handsOut h hsrc hfresh hend]
    simp [Missed]
  · intro hmissed batchSize
    obtain ⟨ready, _, hspec⟩ := replayed_lease h hsrc hfresh hend workerId ordering
    exact (hspec batchSize).missed newId _ replayed_stored replayed_due hmissed

end Lease

/-- A store whose only job was due at 0, with the deadline 5, and was first leased at 10. -/
def lateJob : InnerState :=
  ((Call.job (.lease 10 "emails" "w1" 30 10 .fifo)).apply
    (enqueue InnerState.init 0 7 [] { welcomeEmail with deadlineAt := some 5 }).2).2

theorem lateJob_reachable : backendSystem.Reachable lateJob :=
  .next (i := .job (.lease 10 "emails" "w1" 30 10 .fifo))
    (.next (i := .job (.enqueue 0 7 [] { welcomeEmail with deadlineAt := some 5 })) (.start rfl)
      ⟨⟨⟨rfl, rfl⟩, enumerates_nil⟩, rfl⟩) ⟨trivial, Prod.ext (by decide) rfl⟩

/-- The job that a deadline has dead-lettered, as `get_job` returns it. -/
theorem lateJob_get : getJob lateJob 7 =
    some (deadlineExceeded 10 (newEntity 0 7 { welcomeEmail with deadlineAt := some 5 })) := by decide

/-- A replay whose clock is not yet past the deadline: the copy is handed out. -/
theorem replay_runnable_iff_before :
    ∃ enough, ∀ batchSize ≥ enough, HandsOut (leaseJobsBatchWithOrdering (replayJob lateJob 4 8 7 none none).2 4
      "emails" "w1" 30 batchSize .fifo) "w1" 8 := by
  have hfresh : Unused lateJob 8 := ⟨by decide, by decide⟩
  have hend : (Chrono.addSeconds 4 30).isSome := by decide
  refine (replay_runnable_iff lateJob_reachable lateJob_get hfresh hend "w1" .fifo).2.1.mpr ?_
  intro d hd
  cases hd
  decide

/-- A job dead-lettered by its deadline, replayed at 20: no lease hands the copy out, however large its batch. -/
theorem replay_not_runnable :
    Terminal (deadlineExceeded 10 (newEntity 0 7 { welcomeEmail with deadlineAt := some 5 })).status ∧
      ¬∃ enough, ∀ batchSize ≥ enough, HandsOut (leaseJobsBatchWithOrdering (replayJob lateJob 20 8 7 none none).2 20
        "emails" "w1" 30 batchSize .fifo) "w1" 8 := by
  refine ⟨by decide, ?_⟩
  rw [replayJob_eq lateJob_get]
  intro hall
  have hfresh : Unused lateJob 8 := ⟨by decide, by decide⟩
  have hend : (Chrono.addSeconds 20 30).isSome := by decide
  exact (replayed_handsOut lateJob_reachable lateJob_get hfresh hend "w1" .fifo).mp hall ⟨5, rfl, by decide⟩

end Azums.Memory
