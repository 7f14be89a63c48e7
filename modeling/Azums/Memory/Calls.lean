import Azums.Memory.Attempts
import Azums.Memory.Streams

/-!
# `Memory.Calls` — the whole backend

`memorySystem` takes the calls on jobs. Here the calls on streams join them: a `Call` is any call of
`MemoryBackend` that changes its state, `clear` apart. A stream call touches no job and no attempt, so what
`Memory.Moves` and `Memory.Attempts` say about a job call is true of every call.

A panic poisons the backend's lock, and no later call comes back; so a run is a sequence of calls that came back.
-/

namespace Azums.Memory

/-- A call of the backend. -/
inductive Call where
  | job (op : MemOp)
  | stream (op : StreamOp)

namespace Call

/-- The state a call leaves, and whether it came back. -/
def apply (s : InnerState) : Call → Bool × InnerState
  | job op => op.apply s
  | stream op => (true, op.apply s)

/-- What a call may assume of its surroundings. -/
def Admissible (s : InnerState) : Call → Prop
  | job op => op.Admissible s
  | stream (.prune order _ _) => Enumerates s.streamOffsets order
  | stream _ => True

/-- The attempt ids a call draws. -/
def drawn : Call → List Uuid
  | job op => op.drawn
  | stream _ => []

end Call

/-- `MemoryBackend`: it starts empty, and takes one call after the other. -/
def backendSystem : System InnerState Call :=
  { init := fun s => s = InnerState.init
    step := fun s call s' => call.Admissible s ∧ call.apply s = (true, s') }

/-- What calls on jobs reach, the backend reaches. -/
theorem reachable_jobs {s : InnerState} (h : memorySystem.Reachable s) : backendSystem.Reachable s := by
  induction h with
  | start hs => exact .start hs
  | next _ hst ih => exact ih.next (i := .job _) hst

/-- What a stream call leaves alone. -/
structure OnlyStreams (s s' : InnerState) : Prop where
  jobs : s'.jobs = s.jobs
  queuedJobs : s'.queuedJobs = s.queuedJobs
  archive : s'.archive = s.archive
  attempts : s'.attempts = s.attempts
  attemptCounts : s'.attemptCounts = s.attemptCounts

theorem streamOp_onlyStreams (s : InnerState) (op : StreamOp) : OnlyStreams s (op.apply s) := by
  cases op with
  | publish now stream event => exact ⟨rfl, rfl, rfl, rfl, rfl⟩
  | ack now stream consumerGroup seq => exact ⟨rfl, rfl, rfl, rfl, rfl⟩
  | prune order stream throughSeq =>
      simp only [StreamOp.apply, pruneEvents]
      cases s.streams stream <;> exact ⟨rfl, rfl, rfl, rfl, rfl⟩

/-- What a step of the backend is: a job call, or a call that leaves jobs and attempts alone. -/
theorem backendSystem_step {s s' : InnerState} {call : Call} (h : backendSystem.step s call s') :
    (∃ op, call = .job op ∧ op.Admissible s ∧ op.apply s = (true, s')) ∨
      (∃ op, call = .stream op) ∧ OnlyStreams s s' := by
  obtain ⟨hadm, happ⟩ := h
  cases call with
  | job op => exact Or.inl ⟨op, rfl, hadm, happ⟩
  | stream op =>
      obtain ⟨_, rfl⟩ := Prod.mk.inj happ
      exact Or.inr ⟨⟨op, rfl⟩, streamOp_onlyStreams s op⟩

/-- The invariants of the job and attempt maps, together. -/
theorem backend_invariants {s : InnerState} (h : backendSystem.Reachable s) : WellFormed s ∧ Keyed s := by
  refine h.invariant (I := fun s => WellFormed s ∧ Keyed s) ?_ ?_
  · rintro s rfl
    exact ⟨WellFormed.init, fun a att hatt => by cases hatt⟩
  · rintro s call s' _ ⟨hwf, hk⟩ hstep
    rcases backendSystem_step hstep with ⟨op, rfl, hadm, happ⟩ | ⟨_, hsame⟩
    · have hret : (op.apply s).1 = true := by rw [happ]
      have hwf' := MemOp.apply_wellFormed hwf op hadm hret
      have hk' := apply_keyed hwf hk op hadm hret
      rw [happ] at hwf' hk'
      exact ⟨hwf', hk'⟩
    · refine ⟨hwf.congr hsame.jobs hsame.queuedJobs hsame.archive, ?_⟩
      intro a att hatt
      rw [hsame.attempts] at hatt
      exact hk a att hatt

/-! ## Terminal jobs

`get_job` looks into the job map first and into the archive second. -/

/-- No change starts from a terminal status. -/
theorem JobMove.eq_of_terminal {op : MemOp} {job job' : Job} (h : JobMove op job job') (ht : Terminal job.status) :
    job' = job := by
  have hnq : job.status ≠ "queued" := by
    intro hq
    rw [hq] at ht
    exact absurd ht (by decide)
  have hnr : job.status ≠ "running" := by
    intro hr
    rw [hr] at ht
    exact absurd ht (by decide)
  cases h with
  | keep => rfl
  | missDeadline hq _ _ _ => exact absurd hq hnq
  | lease hq _ => exact absurd hq hnq
  | reap hexp => exact absurd (leaseExpired_running hexp) hnr
  | succeed hr _ => exact absurd hr hnr
  | succeedBatch hr => exact absurd hr hnr
  | retry hr _ => exact absurd hr hnr
  | deadLetter hr _ => exact absurd hr hnr
  | extend hr _ => exact absurd hr hnr
  | cancel hst _ => exact (hst.elim hnq hnr).elim

/-- A job is stored, or archived and then no longer stored. -/
theorem getJob_eq_some {s : InnerState} {id : Uuid} {job : Job} :
    getJob s id = some job ↔ s.jobs id = some job ∨ (s.jobs id = none ∧ s.archive id = some job) := by
  unfold getJob
  cases s.jobs id with
  | none => simp
  | some j => simp

/-- What one call makes of a record: a change of `JobMove`, or nothing. -/
theorem getJob_step {s s' : InnerState} {call : Call} (hwf : WellFormed s) (hstep : backendSystem.step s call s')
    {id : Uuid} {job : Job} (hget : getJob s id = some job) :
    ∃ job', getJob s' id = some job' ∧ (job' = job ∨ ∃ op, call = .job op ∧ JobMove op job job') := by
  rcases backendSystem_step hstep with ⟨op, rfl, hadm, happ⟩ | ⟨_, hsame⟩
  · have hret : (op.apply s).1 = true := by rw [happ]
    have hentry := apply_jobEntry hwf op hadm hret id
    have harchive : ∀ j, s.archive id = some j → s'.archive id = some j := by
      intro j hj
      have := apply_archive hwf op hret hj
      rwa [happ] at this
    rw [happ] at hentry
    rcases getJob_eq_some.mp hget with hjob | ⟨hnone, harch⟩
    · -- the record is in `jobs`: archiving takes it along
      cases hentry with
      | stored before after move =>
          rw [hjob] at before
          cases before
          exact ⟨_, getJob_eq_some.mpr (Or.inl after), Or.inr ⟨op, rfl, move⟩⟩
      | absent before after => rw [hjob] at before; cases before
      | archived before status after kept =>
          rw [hjob] at before
          cases before
          exact ⟨job, getJob_eq_some.mpr (Or.inr ⟨after, kept⟩), Or.inl rfl⟩
      | added unused after queued => rw [unused.1] at hjob; cases hjob
    · -- the record is in the archive, where it stays; nothing new is stored under its id
      cases hentry with
      | stored before after move => rw [hnone] at before; cases before
      | absent before after => exact ⟨job, getJob_eq_some.mpr (Or.inr ⟨after, harchive _ harch⟩), Or.inl rfl⟩
      | archived before status after kept => rw [hnone] at before; cases before
      | added unused after queued => rw [unused.2] at harch; cases harch
  · rw [getJob, hsame.jobs, hsame.archive]
    exact ⟨job, hget, Or.inl rfl⟩

/-- One call keeps the record of a terminal job. -/
theorem getJob_of_step {s s' : InnerState} {call : Call} (hwf : WellFormed s) (hstep : backendSystem.step s call s')
    {id : Uuid} {job : Job} (hget : getJob s id = some job) (ht : Terminal job.status) :
    getJob s' id = some job := by
  obtain ⟨job', hget', rfl | ⟨_, _, move⟩⟩ := getJob_step hwf hstep hget
  · exact hget'
  · rw [hget', move.eq_of_terminal ht]

/-- **A terminal record is final.** Once `get_job` has returned a job that is succeeded, dead-lettered or cancelled,
    it returns the same record, field for field, after any further calls. -/
theorem terminal_record_final {s s' : InnerState} {calls : List Call} (h : backendSystem.Reachable s)
    (hrun : backendSystem.Run s calls s') {id : Uuid} {job : Job} (hget : getJob s id = some job)
    (ht : Terminal job.status) : getJob s' id = some job := by
  refine hrun.keeps (I := fun s => getJob s id = some job) ?_ h hget
  intro t call t' hreach hkept hstep
  exact getJob_of_step (backend_invariants hreach).1 hstep hkept ht

/-- A queued job is cancelled; the copy that `replay_job` enqueues is leased, and the cancelled job stays. -/
theorem terminal_record_final_cancelled :
    let s := ((Call.job (.cancel 1 [] 7 none)).apply
      ((Call.job (.enqueue 0 7 [] welcomeEmail)).apply InnerState.init).2).2
    getJob ((Call.job (.lease 3 "emails" "w1" 30 10 .fifo)).apply
        ((Call.job (.replay 2 8 7 none none)).apply s).2).2 7 =
      some (cancelledJob 1 (newEntity 0 7 welcomeEmail)) := by
  intro s
  have hreach : backendSystem.Reachable s :=
    .next (i := .job (.cancel 1 [] 7 none)) (.next (i := .job (.enqueue 0 7 [] welcomeEmail)) (.start rfl)
      ⟨⟨⟨rfl, rfl⟩, enumerates_nil⟩, rfl⟩) ⟨enumerates_nil, Prod.ext (by decide) rfl⟩
  have hrun : backendSystem.Run s [.job (.replay 2 8 7 none none), .job (.lease 3 "emails" "w1" 30 10 .fifo)]
      ((Call.job (.lease 3 "emails" "w1" 30 10 .fifo)).apply
        ((Call.job (.replay 2 8 7 none none)).apply s).2).2 :=
    .cons ⟨⟨by decide, by decide⟩, Prod.ext (by decide) rfl⟩
      (.cons ⟨trivial, Prod.ext (by decide) rfl⟩ (.nil _))
  exact terminal_record_final hreach hrun (by decide) (Or.inr (Or.inr rfl))

end Azums.Memory
