import Azums.Core.Model

/-!
# `Core.Lifecycle` — the canonical job states

Backends store a job's status as one of a few strings. The canonical states are derived from what is stored:
`Scheduled` and `RetryWait` are both a queued job whose `run_at` lies ahead, told apart by whether an attempt of
the job has failed. `legalSuccessors` is the transition table of the job lifecycle.
-/

namespace Azums

/-- `JobLifecycleState`. -/
inductive JobLifecycleState where
  | scheduled
  | queued
  | running
  | completed
  | retryWait
  | cancelled
  | dlq
deriving DecidableEq

/-- `JobStatus::parse`; an error is the message of its `InvalidState`. -/
def JobStatus.parse (status : String) : Except String JobStatus :=
  match status with
  | "queued" => .ok .queued
  | "running" => .ok .running
  | "succeeded" | "completed" => .ok .completed
  | "failed" => .ok .failed
  | "dlq" => .ok .dlq
  | "canceled" | "cancelled" => .ok .cancelled
  | other => .error s!"unknown job status '{other}'"

namespace JobLifecycleState

/-- `legal_successors`. -/
def legalSuccessors : JobLifecycleState → List JobLifecycleState
  | scheduled => [queued]
  | queued => [running]
  | running => [completed, retryWait, cancelled, dlq]
  | retryWait => [queued]
  | completed | cancelled | dlq => []

/-- `can_transition_to`. -/
def canTransitionTo (self next : JobLifecycleState) : Bool := decide (next ∈ self.legalSuccessors)

/-- `from_persisted`. -/
def fromPersisted (status : JobStatus) (runAt now : DateTime) (failedAttempts : Nat) :
    Except String JobLifecycleState :=
  match status with
  | .queued =>
      if runAt > now ∧ failedAttempts > 0 then .ok retryWait
      else if runAt > now then .ok scheduled
      else .ok queued
  | .running => .ok running
  | .completed | .succeeded => .ok completed
  | .dlq => .ok dlq
  | .cancelled | .canceled => .ok cancelled
  | .failed => .error "job status 'failed' is legacy; failures belong to JobAttempt"

end JobLifecycleState

open JobLifecycleState

/-- `Job::lifecycle_state_at`. -/
def Job.lifecycleStateAt (job : Job) (now : DateTime) (failedAttempts : Nat) : Except String JobLifecycleState :=
  match JobStatus.parse job.status with
  | .ok status => fromPersisted status job.runAt now failedAttempts
  | .error e => .error e

section LifecycleStateAt

variable {job : Job} {now : DateTime} {failedAttempts : Nat}

theorem lifecycleStateAt_running (h : job.status = "running") (now : DateTime) (failedAttempts : Nat) :
    job.lifecycleStateAt now failedAttempts = .ok running := by
  simp [Job.lifecycleStateAt, JobStatus.parse, fromPersisted, h]

theorem lifecycleStateAt_succeeded (h : job.status = "succeeded") :
    job.lifecycleStateAt now failedAttempts = .ok completed := by
  simp [Job.lifecycleStateAt, JobStatus.parse, fromPersisted, h]

theorem lifecycleStateAt_dlq (h : job.status = "dlq") : job.lifecycleStateAt now failedAttempts = .ok dlq := by
  simp [Job.lifecycleStateAt, JobStatus.parse, fromPersisted, h]

theorem lifecycleStateAt_canceled (h : job.status = "canceled") :
    job.lifecycleStateAt now failedAttempts = .ok cancelled := by
  simp [Job.lifecycleStateAt, JobStatus.parse, fromPersisted, h]

/-- A queued job that is due. -/
theorem lifecycleStateAt_due (h : job.status = "queued") (hdue : job.runAt ≤ now) :
    job.lifecycleStateAt now failedAttempts = .ok queued := by
  have hnot : ¬job.runAt > now := not_lt.mpr hdue
  simp [Job.lifecycleStateAt, JobStatus.parse, fromPersisted, h, hnot]

/-- A queued job whose time has not come. -/
theorem lifecycleStateAt_ahead (h : job.status = "queued") (hahead : now < job.runAt) (failedAttempts : Nat) :
    job.lifecycleStateAt now failedAttempts = .ok (if 0 < failedAttempts then retryWait else scheduled) := by
  by_cases hf : 0 < failedAttempts <;>
    simp [Job.lifecycleStateAt, JobStatus.parse, fromPersisted, h, hahead, hf]

/-- A queued job is in one of the three states that wait for a worker. -/
theorem lifecycleStateAt_waiting (h : job.status = "queued") (now : DateTime) (failedAttempts : Nat) :
    ∃ source, job.lifecycleStateAt now failedAttempts = .ok source ∧
      (source = scheduled ∨ source = queued ∨ source = retryWait) := by
  by_cases hdue : job.runAt ≤ now
  · exact ⟨queued, lifecycleStateAt_due h hdue, Or.inr (Or.inl rfl)⟩
  · have hahead := lifecycleStateAt_ahead h (not_le.mp hdue) failedAttempts
    by_cases hf : 0 < failedAttempts
    · rw [if_pos hf] at hahead
      exact ⟨retryWait, hahead, Or.inr (Or.inr rfl)⟩
    · rw [if_neg hf] at hahead
      exact ⟨scheduled, hahead, Or.inl rfl⟩

/-- Of the number of failed attempts, only whether there are any matters. -/
theorem lifecycleStateAt_congr {n : Nat} (h : 0 < failedAttempts ↔ 0 < n) :
    job.lifecycleStateAt now failedAttempts = job.lifecycleStateAt now n := by
  unfold Job.lifecycleStateAt
  cases JobStatus.parse job.status with
  | error e => rfl
  | ok status =>
      cases status with
      | queued => simp only [fromPersisted, gt_iff_lt, h]
      | _ => rfl

end LifecycleStateAt

end Azums
