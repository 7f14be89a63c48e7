import Azums.Memory.Registry
import Azums.Quickstart.Records

/-!
# `Quickstart.Wakeups` — no wake-up is lost

A worker that finds its queue empty sleeps in a `select!`: on the subscription it made when it started, and on a timer of
five seconds. The backend releases its lock before it notifies, so between a job and its notification anything can happen:
another worker leases the job, the sleeper leases nothing and falls asleep, its channel overflows.

The system here has the workers of one `MemoryBackend`, each at its stage of `run_with_shutdown`, and every other client
of the backend. Inserting and notifying are two steps. `no_lost_wakeup` says that a worker which went to sleep on an
empty lease can be woken as long as a job of its queue is stored that was not there at the lease: its channel holds a
notification, or the call that stored the job has yet to send one. A job that was there before, and that a retry or
the reaper put back, is not announced: the timer is for those.
-/

namespace Azums.Quickstart

open Azums.Memory
open Function (update)

/-! ## Notifications -/

/-- The queue that a call notifies once it has released the lock. -/
def announced (s : InnerState) : MemOp → Option String
  | .enqueue _ _ order new => if (new.idempotencyKey.bind (findByKey s order)).isSome then none else some new.queue
  | .replay _ _ jobId overrideQueue _ => (getJob s jobId).map fun src => overrideQueue.getD src.queue
  | .markSucceeded now newId jobId attemptId workerId latencyMs =>
      match (markSucceeded s now newId jobId attemptId workerId latencyMs).1, recurringJob s now newId jobId with
      | .ok (), some (some next) => some next.queue
      | _, _ => none
  | _ => none

/-- `mark_succeeded_batch` holds no lock of its own: it is one `mark_succeeded` after the other. -/
def Single : MemOp → Prop
  | .markSucceededBatch .. => False
  | _ => True

variable {s s' : InnerState} {op : MemOp} {id : Uuid}

/-- **A new job is announced.** -/
theorem announced_of_new (hadm : op.Admissible s) (hret : (op.apply s).1 = true) (hone : Single op)
    (hnone : s.jobs id = none) {job : Job} (hjob : (op.apply s).2.jobs id = some job) :
    announced s op = some job.queue := by
  cases apply_born hadm hret hnone hjob with
  | enqueued hkey => simp [announced, hkey, newEntity]
  | replayed hsrc => simp [announced, hsrc, replayEntity]
  | recurredInBatch _ _ _ _ _ _ => exact hone.elim
  | @recurred now newId jobId attemptId workerId latencyMs interval src next hsrc hst hby hi hnext =>
      have hrec : recurringJob s now newId jobId = some (some job) := by simp [recurringJob, hsrc, hi, hnext]
      simp only [MemOp.apply, MemOp.finish_snd] at hjob
      rcases markSucceeded_cases s now newId jobId attemptId workerId latencyMs with
        ⟨_, heq⟩ | ⟨_, _, e, heq⟩ | ⟨_, _, _, _, _, _, heq⟩
      · rw [heq] at hjob
        simp [hnone] at hjob
      · rw [heq] at hjob
        simp [hnone] at hjob
      · simp [announced, heq, hrec]

/-- A job that is stored after a call was stored before it, in the same queue, or the call announces it. -/
theorem stored_before_or_announced (hwf : WellFormed s) (hadm : op.Admissible s) (hret : (op.apply s).1 = true)
    (hone : Single op) {job : Job} (hjob : (op.apply s).2.jobs id = some job) :
    (∃ before, s.jobs id = some before ∧ before.queue = job.queue) ∨ announced s op = some job.queue := by
  cases hbefore : s.jobs id with
  | none => exact Or.inr (announced_of_new hadm hret hone hbefore hjob)
  | some before =>
      left
      cases apply_jobEntry hwf op hadm hret id with
      | stored hb ha move =>
          rw [hbefore] at hb
          cases hb
          rw [hjob] at ha
          cases ha
          exact ⟨before, rfl, (congrArg JobIdentity.queue move.identity).symm⟩
      | absent hb _ => rw [hbefore] at hb; cases hb
      | archived _ _ ha _ => rw [hjob] at ha; cases ha
      | added hunused _ _ => rw [hunused.1] at hbefore; cases hbefore

/-! ## Workers -/

/-- Where a worker is in `run_with_shutdown`. -/
inductive LoopStage where
  | starting
  | leasing
  | waiting
  | working
  | stopped
deriving DecidableEq

/-- A worker has a receiver from its subscription until it stops. -/
def LoopStage.Subscribed (stage : LoopStage) : Prop := stage ≠ .starting ∧ stage ≠ .stopped

instance (stage : LoopStage) : Decidable stage.Subscribed := inferInstanceAs (Decidable (_ ∧ _))

/-- The backend, the notifications that calls have yet to send, and the workers: their stages, and how many
    notifications were sent to each that it has not read. -/
structure World (ι : Type) where
  backend : InnerState
  unsent : List String
  stage : ι → LoopStage
  unread : ι → Nat

inductive Event (ι : Type) where
  | subscribe (i : ι)
  | lease (i : ι) (now : DateTime)
  | processed (i : ι)
  | wake (i : ι)
  | timeout (i : ι)
  | stop (i : ι)
  | call (call : Call)
  | notify (queue : String)

/-- The worker that an event is a step of. -/
def Event.worker {ι : Type} : Event ι → Option ι
  | subscribe i | lease i _ | processed i | wake i | timeout i | stop i => some i
  | call _ | notify _ => none

/-- `broadcast::channel(128)`: a receiver that is further behind has lost the oldest messages. -/
def channelCapacity : Nat := 128

/-- What a call still has to send. -/
def Call.announced (s : InnerState) : Call → List String
  | .job op => (Quickstart.announced s op).toList
  | .stream _ => []

def Call.Single : Call → Prop
  | .job op => Quickstart.Single op
  | .stream _ => True

section System

variable {ι : Type} [DecidableEq ι] (flow : ι → Flow)

/-- One step of a worker's loop, of a client's call, or of the notification a call ends with. The calls that a worker
    makes besides its lease (the batch in hand, the reaper, the maintenance) are steps of their own. -/
inductive Step : World ι → Event ι → World ι → Prop where
  | subscribe {w : World ι} {i : ι} : w.stage i = .starting →
      Step w (.subscribe i) { w with stage := update w.stage i .leasing, unread := update w.unread i 0 }
  | lease {w : World ι} {i : ι} {now : DateTime} {batch : List Job} {s' : InnerState} : w.stage i = .leasing →
      leaseJobsBatchWithOrdering w.backend now (flow i).queue (flow i).workerId (flow i).leaseSeconds 32
        (flow i).ordering = (.ok batch, s') →
      Step w (.lease i now)
        { w with backend := s', stage := update w.stage i (if batch.isEmpty then .waiting else .working) }
  | processed {w : World ι} {i : ι} : w.stage i = .working →
      Step w (.processed i) { w with stage := update w.stage i .leasing }
  | wake {w : World ι} {i : ι} : w.stage i = .waiting → 0 < w.unread i →
      Step w (.wake i) { w with
        stage := update w.stage i .leasing
        unread := update w.unread i (min (w.unread i) channelCapacity - 1) }
  | timeout {w : World ι} {i : ι} : w.stage i = .waiting →
      Step w (.timeout i) { w with stage := update w.stage i .leasing }
  | stop {w : World ι} {i : ι} : (w.stage i).Subscribed →
      Step w (.stop i) { w with stage := update w.stage i .stopped }
  | call {w : World ι} {call : Call} {s' : InnerState} : Call.Single call → backendSystem.step w.backend call s' →
      Step w (.call call) { w with backend := s', unsent := Call.announced w.backend call ++ w.unsent }
  | notify {w : World ι} {queue : String} : queue ∈ w.unsent →
      Step w (.notify queue) { w with
        unsent := w.unsent.erase queue
        unread := fun i => if (flow i).queue = queue ∧ (w.stage i).Subscribed then w.unread i + 1 else w.unread i }

/-- The workers start with an empty backend. -/
def workersSystem : System (World ι) (Event ι) :=
  { init := fun w => w.backend = InnerState.init ∧ w.unsent = [] ∧ ∀ i, w.stage i = .starting
    step := Step flow }

/-- `s.next()` returns. -/
def CanWake (w : World ι) (i : ι) : Prop := ∃ w', (workersSystem flow).step w (.wake i) w'

end System

section Laws

variable {ι : Type} [DecidableEq ι] {flow : ι → Flow} {w w' : World ι} {i : ι}

/-- To the backend a step of the system is a call, or nothing. -/
theorem step_backend {event : Event ι} (h : (workersSystem flow).step w event w') :
    w'.backend = w.backend ∨
      ∃ call, Call.Single call ∧ backendSystem.step w.backend call w'.backend ∧
        w'.unsent = Call.announced w.backend call ++ w.unsent := by
  cases h with
  | subscribe _ => exact Or.inl rfl
  | @lease i now batch s' _ hlease =>
      refine Or.inr ⟨.job (.lease now (flow i).queue (flow i).workerId (flow i).leaseSeconds 32 (flow i).ordering),
        trivial, ⟨trivial, ?_⟩, rfl⟩
      simp only [Call.apply, MemOp.apply, hlease]
      rfl
  | processed _ => exact Or.inl rfl
  | wake _ _ => exact Or.inl rfl
  | timeout _ => exact Or.inl rfl
  | stop _ => exact Or.inl rfl
  | call hone hstep => exact Or.inr ⟨_, hone, hstep, rfl⟩
  | notify _ => exact Or.inl rfl

theorem backend_reachable (h : (workersSystem flow).Reachable w) : backendSystem.Reachable w.backend := by
  refine h.invariant (I := fun w => backendSystem.Reachable w.backend) ?_ ?_
  · rintro w ⟨hinit, _⟩
    exact .start hinit
  · intro w event w' _ hreach hstep
    rcases step_backend hstep with hsame | ⟨call, _, hcall, _⟩
    · rw [hsame]; exact hreach
    · exact hreach.next hcall

/-- A step stores no job of a queue that was not there, unless it leaves a notification of the queue to be sent. -/
theorem step_announces {event : Event ι} (hwf : WellFormed w.backend) (h : (workersSystem flow).step w event w') {id : Uuid}
    {job : Job} (hjob : w'.backend.jobs id = some job) :
    (∃ before, w.backend.jobs id = some before ∧ before.queue = job.queue) ∨ job.queue ∈ w'.unsent := by
  rcases step_backend h with hsame | ⟨call, hone, hcall, hunsent⟩
  · rw [hsame] at hjob
    exact Or.inl ⟨job, hjob, rfl⟩
  · rcases backendSystem_step hcall with ⟨op, rfl, hadm, happ⟩ | ⟨_, honly⟩
    · have hret : (op.apply w.backend).1 = true := by rw [happ]
      have hafter : (op.apply w.backend).2 = w'.backend := by rw [happ]
      rw [← hafter] at hjob
      rcases stored_before_or_announced hwf hadm hret hone hjob with hbefore | hannounced
      · exact Or.inl hbefore
      · right
        rw [hunsent, Call.announced, hannounced]
        simp
    · rw [honly.jobs] at hjob
      exact Or.inl ⟨job, hjob, rfl⟩

/-- A notification that was sent to a worker, or is about to be, stays until the worker moves. -/
theorem step_keeps_notice {event : Event ι} (h : (workersSystem flow).step w event w') (hother : event.worker ≠ some i)
    (hsub : (w.stage i).Subscribed) (hnotice : 0 < w.unread i ∨ (flow i).queue ∈ w.unsent) :
    0 < w'.unread i ∨ (flow i).queue ∈ w'.unsent := by
  cases h with
  | @subscribe j _ =>
      have hne : i ≠ j := fun heq => hother (by rw [heq]; rfl)
      simpa [hne] using hnotice
  | lease _ _ => exact hnotice
  | processed _ => exact hnotice
  | @wake j _ _ =>
      have hne : i ≠ j := fun heq => hother (by rw [heq]; rfl)
      simpa [hne] using hnotice
  | timeout _ => exact hnotice
  | stop _ => exact hnotice
  | call _ _ => exact hnotice.imp_right (List.mem_append_right _)
  | @notify queue hmem =>
      by_cases hq : (flow i).queue = queue
      · left
        simp [hq, hsub]
      · rcases hnotice with hunread | hunsent
        · left
          simp [hq, hunread]
        · exact Or.inr ((List.mem_erase_of_ne hq).mpr hunsent)

/-- The others do not move a worker. -/
theorem step_stage {event : Event ι} (h : (workersSystem flow).step w event w') (hother : event.worker ≠ some i) :
    w'.stage i = w.stage i := by
  cases h with
  | call _ _ => rfl
  | notify _ => rfl
  | subscribe _ | lease _ _ | processed _ | wake _ _ | timeout _ | stop _ =>
      exact Function.update_of_ne (fun heq => hother (by rw [heq]; rfl)) ..

/-- What holds of a sleeping worker, against the state of the backend it went to sleep in. -/
structure Heard (flow : ι → Flow) (asleep : InnerState) (i : ι) (w : World ι) : Prop where
  waiting : w.stage i = .waiting
  notice : ∀ id job, asleep.jobs id = none → w.backend.jobs id = some job → job.queue = (flow i).queue →
    0 < w.unread i ∨ (flow i).queue ∈ w.unsent

omit [DecidableEq ι] in
theorem Heard.subscribed {asleep : InnerState} (h : Heard flow asleep i w) : (w.stage i).Subscribed := by
  simp [h.waiting, LoopStage.Subscribed]

/-- **The step lemma.** -/
theorem Heard.step {asleep : InnerState} {event : Event ι} (hwf : WellFormed w.backend) (h : Heard flow asleep i w)
    (hstep : (workersSystem flow).step w event w') (hother : event.worker ≠ some i) : Heard flow asleep i w' where
  waiting := (step_stage hstep hother).trans h.waiting
  notice := by
    intro id job hnew hjob hqueue
    rcases step_announces hwf hstep hjob with ⟨before, hbefore, hsame⟩ | hunsent
    · exact step_keeps_notice hstep hother h.subscribed (h.notice id before hnew hbefore (hsame.trans hqueue))
    · exact Or.inr (hqueue ▸ hunsent)

theorem Heard.run {asleep : InnerState} {events : List (Event ι)} (hrun : (workersSystem flow).Run w events w') :
    (workersSystem flow).Reachable w → (∀ event ∈ events, event.worker ≠ some i) → Heard flow asleep i w →
      Heard flow asleep i w' := by
  induction hrun with
  | nil w => intro _ _ h; exact h
  | cons hstep _ ih =>
      intro hreach hother h
      have hwf := (backend_invariants (backend_reachable hreach)).1
      exact ih (hreach.next hstep) (fun event he => hother event (List.mem_cons_of_mem _ he))
        (h.step hwf hstep (hother _ List.mem_cons_self))

/-- **No wake-up is lost.** A worker leases, comes back with nothing and sleeps. Whatever the other workers and clients do
    until it moves again: while a job of its queue is stored that was not stored at that lease, the worker can be woken,
    or will be by a notification that a call has yet to send. -/
theorem no_lost_wakeup {asleep : World ι} {now : DateTime} {events : List (Event ι)}
    (hreach : (workersSystem flow).Reachable w) (hlease : (workersSystem flow).step w (.lease i now) asleep)
    (hempty : asleep.stage i = .waiting) (hrun : (workersSystem flow).Run asleep events w')
    (hother : ∀ event ∈ events, event.worker ≠ some i) {id : Uuid} {job : Job}
    (hnew : asleep.backend.jobs id = none) (hjob : w'.backend.jobs id = some job)
    (hqueue : job.queue = (flow i).queue) :
    CanWake flow w' i ∨
      (flow i).queue ∈ w'.unsent ∧
        ∀ w'', (workersSystem flow).step w' (.notify (flow i).queue) w'' → CanWake flow w'' i := by
  have hheard : Heard flow asleep.backend i w' :=
    Heard.run hrun (hreach.next hlease) hother
      ⟨hempty, fun id job hnone hsome _ => by rw [hnone] at hsome; cases hsome⟩
  rcases hheard.notice id job hnew hjob hqueue with hunread | hunsent
  · exact Or.inl ⟨_, .wake hheard.waiting hunread⟩
  · refine Or.inr ⟨hunsent, ?_⟩
    rintro w'' (_ | _ | _)
    exact ⟨_, .wake hheard.waiting (by simp [hheard.subscribed])⟩

/-- A worker goes to sleep, and a job is enqueued: its channel is still empty, and the notification is on its way. -/
theorem no_lost_wakeup_enqueued :
    ∃ w : World Unit, (workersSystem fun _ => emailFlow).Reachable w ∧ w.stage () = .waiting ∧ w.unread () = 0 ∧
      (CanWake (fun _ => emailFlow) w () ∨ "emails" ∈ w.unsent ∧
        ∀ w', (workersSystem fun _ => emailFlow).step w (.notify "emails") w' →
          CanWake (fun _ => emailFlow) w' ()) := by
  let w₀ : World Unit := ⟨InnerState.init, [], fun _ => .starting, fun _ => 0⟩
  let w₁ : World Unit := { w₀ with stage := update w₀.stage () .leasing, unread := update w₀.unread () 0 }
  let w₂ : World Unit := { w₁ with stage := update w₁.stage () .waiting }
  let w₃ : World Unit :=
    { w₂ with backend := ((MemOp.enqueue 0 7 [] welcomeEmail).apply InnerState.init).2, unsent := ["emails"] }
  have hreach : (workersSystem fun _ => emailFlow).Reachable w₁ :=
    .next (.start (s := w₀) ⟨rfl, rfl, fun _ => rfl⟩) (.subscribe rfl)
  have hnothing : leaseJobsBatchWithOrdering InnerState.init 3 "emails" "w1" 30 32 .fifo =
      (.ok [], InnerState.init) := rfl
  have hlease : (workersSystem fun _ => emailFlow).step w₁ (.lease () 3) w₂ :=
    @Step.lease Unit _ (fun _ => emailFlow) w₁ () 3 [] InnerState.init (by simp [w₁]) hnothing
  have hcall : (workersSystem fun _ => emailFlow).step w₂ (.call (.job (.enqueue 0 7 [] welcomeEmail))) w₃ :=
    .call trivial ⟨⟨⟨rfl, rfl⟩, enumerates_nil⟩, rfl⟩
  have hstored : w₃.backend.jobs 7 = some (newEntity 0 7 welcomeEmail) := rfl
  refine ⟨w₃, (hreach.next hlease).next hcall, by simp [w₃, w₂], by simp [w₃, w₂, w₁], ?_⟩
  exact no_lost_wakeup hreach hlease (by simp [w₂]) (.cons hcall (.nil w₃)) (by simp [Event.worker]) rfl hstored
    (by simp [newEntity, welcomeEmail, emailFlow])

end Laws

end Azums.Quickstart
