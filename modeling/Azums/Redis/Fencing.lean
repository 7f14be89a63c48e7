import Azums.Redis.Backend

/-!
# `Redis.Fencing` — stale acknowledgements, one call after another

`RedisBackend` counts a job's attempts and never stores one: `mark_succeeded`, `reschedule_for_retry` and `mark_dlq`
take an attempt id and do not look at it. All that tells one lease from another is the worker id in the record. So a
worker id that leases a job again is let in with an attempt id of its first lease, whether that lease was reaped or
not.

Here calls run one after another. Beside the store, a `Session` keeps the history that fencing is about: how often
each job was leased, and under which lease an attempt id was handed out. `attempt_fencing` says that acknowledgements
are fenced as long as no worker id acknowledges a job that it has leased again since it was handed the attempt, and none
acknowledges a job that has no record: that is answered with `Ok(())`, whatever the attempt id is.
-/

namespace Azums.Redis

/-! ## Requests -/

/-- A call, and the attempt id that an acknowledgement presents: the backend's `_attempt_id`. -/
structure Request where
  call : Call
  attemptId : Uuid

/-- The job and the worker of an acknowledgement. -/
def Call.ack : Call → Option (Uuid × String)
  | .markSucceeded _ _ jobId workerId | .rescheduleForRetry _ jobId workerId _ | .markDlq _ _ jobId workerId _ =>
      some (jobId, workerId)
  | _ => none

/-- The attempt ids that a call makes. -/
def Call.attemptIds : Call → List Uuid
  | .startAttemptsBatch _ jobs => jobs.map (·.2)
  | _ => []

/-- A call, run to its end. -/
def Call.serve (call : Call) (s : Store) : Outcome Answer × Store := call.program.alone Command.exec s

/-! ## History -/

/-- An attempt id that was handed out: for which job, to which worker, and under which of the job's leases. -/
structure Hand where
  jobId : Uuid
  workerId : String
  lease : Nat
deriving DecidableEq

/-- What has happened: how many leases a job has had, which of them was the last of a worker, which attempt ids were
    handed out, and which leases the reaper has ended. -/
structure History where
  leases : Uuid → Nat
  lastLease : Uuid → String → Nat
  handed : Uuid → Option Hand
  reclaimed : Uuid → Nat → Bool

namespace History

/-- Nothing has happened. -/
def empty : History :=
  { leases := fun _ => 0, lastLease := fun _ _ => 0, handed := fun _ => none, reclaimed := fun _ _ => false }

/-- The worker leases the job. -/
def lease (h : History) (workerId : String) (jobId : Uuid) : History :=
  { h with
    leases := Function.update h.leases jobId (h.leases jobId + 1)
    lastLease := Function.update h.lastLease jobId
      (Function.update (h.lastLease jobId) workerId (h.leases jobId + 1)) }

/-- The worker is handed an attempt of the job. -/
def hand (h : History) (workerId : String) (jobId attemptId : Uuid) : History :=
  { h with handed := Function.update h.handed attemptId (some ⟨jobId, workerId, h.leases jobId⟩) }

end History

/-- The record of the job says that it is running. -/
def Store.running (s : Store) (jobId : Uuid) : Bool := (s.jobs jobId).any (fun job => job.status == "running")

namespace History

/-- A reaper has given back the jobs that were running before it and are not running after it. -/
def reap (h : History) (s s' : Store) : History :=
  { h with reclaimed := fun jobId n =>
      h.reclaimed jobId n || (s.running jobId && !s'.running jobId && n == h.leases jobId) }

/-- What a call adds: it is read off the call, what it returned, and the store before and after it. -/
def record (h : History) (call : Call) (outcome : Outcome Answer) (s s' : Store) : History :=
  match call, outcome with
  | .leaseJobsBatch _ _ workerId _ _, .ok (.jobs leased) =>
      (leased.map (·.id)).foldl (fun h id => h.lease workerId id) h
  | .startAttemptsBatch workerId _, .ok (.started attempts) =>
      attempts.foldl (fun h a => h.hand workerId a.1 a.2.1) h
  | .reapExpiredLocks _ _, _ => h.reap s s'
  | _, _ => h

end History

/-! ## Sessions -/

/-- The store, and what has happened to it. -/
structure Session where
  store : Store
  history : History

/-- The session after a request. -/
def Session.apply (σ : Session) (request : Request) : Session :=
  let answer := request.call.serve σ.store
  { store := answer.2, history := σ.history.record request.call answer.1 σ.store answer.2 }

/-- `Uuid::new_v4` makes attempt ids that were not handed out before. -/
def Session.NewAttempts (σ : Session) (call : Call) : Prop :=
  call.attemptIds.Nodup ∧ ∀ a ∈ call.attemptIds, σ.history.handed a = none

/-- Requests, one after another, from a server with nothing in it. -/
def sessionSystem : System Session Request where
  init σ := σ = { store := .empty, history := .empty }
  step σ request σ' := σ.NewAttempts request.call ∧ σ' = σ.apply request

/-- The attempt was handed out under the current lease of the job. -/
def Session.Current (σ : Session) (attemptId jobId : Uuid) : Prop :=
  ∃ hand, σ.history.handed attemptId = some hand ∧ hand.jobId = jobId ∧ hand.lease = σ.history.leases jobId

/-- The answer to the request is `Ok`. -/
def Session.Accepts (σ : Session) (request : Request) : Prop :=
  ∃ answer, (request.call.serve σ.store).1 = .ok answer

/-- **The fencing law** for one request: an acknowledgement is accepted, and changes the record of its job, only with an
    attempt id of the job's current lease, and not with one of a lease that the reaper has ended. -/
structure FencingLaw (σ : Session) (request : Request) (σ' : Session) : Prop where
  current : ∀ jobId workerId, request.call.ack = some (jobId, workerId) →
    σ.Accepts request ∨ σ'.store.jobs jobId ≠ σ.store.jobs jobId → σ.Current request.attemptId jobId
  stale : ∀ jobId workerId hand, request.call.ack = some (jobId, workerId) →
    σ.history.handed request.attemptId = some hand → hand.jobId = jobId →
    σ.history.reclaimed jobId hand.lease = true →
      ¬σ.Accepts request ∧ σ'.store.jobs jobId = σ.store.jobs jobId

/-- A job that is acknowledged has a record, and if it runs under the caller's worker id, it is acknowledged with an
    attempt id that this worker id was handed for it, and the worker id has not leased the job again since. -/
structure OwnLease (σ : Session) (request : Request) (_ : Session) : Prop where
  stored : ∀ jobId workerId, request.call.ack = some (jobId, workerId) → ∃ job, σ.store.jobs jobId = some job
  handed : ∀ jobId workerId job, request.call.ack = some (jobId, workerId) → σ.store.jobs jobId = some job →
    holdsLease workerId job = true →
      σ.history.handed request.attemptId = some ⟨jobId, workerId, σ.history.lastLease jobId workerId⟩

/-! ## What a call does to the records -/

/-- What becomes of a record while no job comes under a lease: it stays, or belongs to a job that is not running, or has
    the status and the owner it had. -/
inductive Unleased (id : Uuid) (before : Option Job) : Option Job → Prop where
  | same : Unleased id before before
  | idle {job : Job} : job.id = id → job.status ≠ "running" → Unleased id before (some job)
  | kept {job job' : Job} : before = some job → job'.id = job.id → job'.status = job.status →
      job'.lockedBy = job.lockedBy → Unleased id before (some job')

variable {s s' s'' : Store} {id : Uuid}

theorem Unleased.trans {before between after : Option Job} (h : Unleased id before between)
    (h' : Unleased id between after) : Unleased id before after := by
  cases h' with
  | same => exact h
  | idle hid hst => exact .idle hid hst
  | @kept job job' hbetween hid hst hby =>
      cases h with
      | same => exact .kept hbetween hid hst hby
      | idle hid' hst' =>
          cases hbetween
          exact .idle (hid.trans hid') (hst ▸ hst')
      | kept hbefore hid' hst' hby' =>
          cases hbetween
          exact .kept hbefore (hid.trans hid') (hst.trans hst') (hby.trans hby')

/-- A job that runs afterwards was running before, for the same owner. -/
theorem Unleased.owner {before : Option Job} {job : Job} (h : Unleased id before (some job))
    (hst : job.status = "running") :
    ∃ job₀, before = some job₀ ∧ job₀.status = "running" ∧ job₀.lockedBy = job.lockedBy := by
  cases h with
  | same => exact ⟨job, rfl, hst, rfl⟩
  | idle _ hidle => exact absurd hst hidle
  | kept hbefore _ hst' hby => exact ⟨_, hbefore, hst'.symm.trans hst, hby.symm⟩

theorem Unleased.id_eq {before : Option Job} {job : Job} (h : Unleased id before (some job))
    (hbefore : ∀ job₀, before = some job₀ → job₀.id = id) : job.id = id := by
  cases h with
  | same => exact hbefore job rfl
  | idle hid _ => exact hid
  | kept hold hid _ _ => exact hid.trans (hbefore _ hold)

/-- No job comes under a lease between the two stores. -/
def NoLease (s s' : Store) : Prop := ∀ id, Unleased id (s.jobs id) (s'.jobs id)

theorem NoLease.refl (s : Store) : NoLease s s := fun _ => .same

theorem NoLease.trans (h : NoLease s s') (h' : NoLease s' s'') : NoLease s s'' := fun id => (h id).trans (h' id)

/-- Only `HSET` writes records. -/
theorem noLease_exec {c : Command} (h : ∀ id job, c ≠ .hset id job) : NoLease s (c.exec s).2 := by
  intro id
  rw [Command.exec_jobs (fun job => h id job)]
  exact .same

/-- A record is written over one that it follows from. -/
theorem noLease_hset {job : Job} (h : Unleased id (s.jobs id) (some job)) :
    NoLease s ((Command.hset id job).exec s).2 := by
  intro id'
  by_cases hid : id' = id
  · subst hid
    rw [Command.exec_hset]
    exact h
  · rw [Command.exec_jobs (fun job' heq => hid (by cases heq; rfl))]
    exact .same

/-- A record with a status that is not `running`. -/
theorem Unleased.of_status {before : Option Job} {job : Job} (status : String) (hst : job.status = status)
    (hne : status ≠ "running") (hid : job.id = id) : Unleased id before (some job) := by
  refine .idle hid ?_
  rw [hst]
  exact hne

/-- The record under an id is that of the job. -/
def Keyed (s : Store) : Prop := ∀ id job, s.jobs id = some job → job.id = id

theorem Keyed.noLease (hk : Keyed s) (h : NoLease s s') : Keyed s' := by
  intro id job hjob
  have hentry := h id
  rw [hjob] at hentry
  exact hentry.id_eq fun job₀ hbefore => hk id job₀ hbefore

/-- Run from `s`, the program brings no job under a lease. -/
def LeasesNone {α : Type} (p : Cmds α) (s : Store) : Prop := NoLease s (p.alone Command.exec s).2

section Rules

variable {α : Type}

theorem leasesNone_return {a : α} : LeasesNone (return a : Cmds α) s := NoLease.refl s

/-- A command that writes no record. -/
theorem leasesNone_call {c : Command} {k : c.Reply → Cmds α} (hc : ∀ id job, c ≠ .hset id job)
    (hk : ∀ r s', NoLease s s' → LeasesNone (k r) s') : LeasesNone (.call c k) s := by
  have h := noLease_exec (s := s) hc
  exact h.trans (hk _ _ h)

theorem leasesNone_hget {k : Option Job → Cmds α} (hnone : LeasesNone (k none) s)
    (hsome : ∀ job, s.jobs id = some job → LeasesNone (k (some job)) s) : LeasesNone (.call (.hget id) k) s := by
  show NoLease s ((k (s.jobs id)).alone Command.exec s).2
  cases hjob : s.jobs id with
  | none => exact hnone
  | some job => exact hsome job hjob

theorem leasesNone_hset {job : Job} {k : Unit → Cmds α} (h : Unleased id (s.jobs id) (some job))
    (hk : ∀ s', NoLease s s' → LeasesNone (k ()) s') : LeasesNone (.call (.hset id job) k) s := by
  have hset := noLease_hset h
  exact hset.trans (hk _ hset)

end Rules

/-! ### The calls other than a lease -/

theorem storeJob_leasesNone {now : DateTime} {jobId : Uuid} {job : NewJob} : LeasesNone (storeJob now jobId job) s :=
  leasesNone_hset (.of_status "queued" rfl (by decide) rfl) fun _ _ =>
    leasesNone_call (fun _ _ h => by cases h) fun _ _ _ => leasesNone_return

theorem enqueue_leasesNone {now : DateTime} {jobId : Uuid} {job : NewJob} : LeasesNone (enqueue jobId now job) s := by
  unfold enqueue
  cases job.idempotencyKey with
  | none => exact storeJob_leasesNone
  | some key =>
      refine leasesNone_call (fun _ _ h => by cases h) ?_
      rintro (_ | _) s₁ _
      · refine leasesNone_call (fun _ _ h => by cases h) ?_
        rintro (_ | existing) s₂ _ <;> exact leasesNone_return
      · exact storeJob_leasesNone

theorem reapList_leasesNone {now : DateTime} {procKey target : String} {f : Nat → Cmds (Outcome Answer)}
    (hf : ∀ n s, Keyed s → LeasesNone (f n) s) :
    ∀ (jids : List Uuid) (reaped : Nat) (s : Store), Keyed s →
      LeasesNone (reapList now procKey target jids reaped >>= f) s
  | [], reaped, s, hk => hf reaped s hk
  | jid :: rest, reaped, s, hk => by
      unfold reapList
      refine leasesNone_hget (reapList_leasesNone hf rest reaped s hk) (fun job hjob => ?_)
      show LeasesNone ((if _ then _ else _) >>= f) s
      split
      · have hid : job.id = jid := hk jid job hjob
        refine leasesNone_hset (.of_status "queued" rfl (by decide) hid) fun s₁ h₁ => ?_
        refine leasesNone_call (fun _ _ h => by cases h) fun _ s₂ h₂ => ?_
        refine leasesNone_call (fun _ _ h => by cases h) fun _ s₃ h₃ => ?_
        exact reapList_leasesNone hf rest (reaped + 1) s₃ (((hk.noLease h₁).noLease h₂).noLease h₃)
      · exact reapList_leasesNone hf rest reaped s hk

theorem reapKeys_leasesNone {now : DateTime} :
    ∀ (keys : List String) (reaped : Nat) (s : Store), Keyed s → LeasesNone (reapKeys now keys reaped) s
  | [], _, _, _ => leasesNone_return
  | procKey :: rest, reaped, s, hk => by
      unfold reapKeys
      split
      · exact reapKeys_leasesNone rest reaped s hk
      · refine leasesNone_call (fun _ _ h => by cases h) fun jobIds s₁ h₁ => ?_
        exact reapList_leasesNone (reapKeys_leasesNone rest) jobIds reaped s₁ (hk.noLease h₁)

theorem withLease_leasesNone {jobId : Uuid} {workerId : String} {missing refused : Outcome Answer}
    {act : Job → Cmds (Outcome Answer)} (hact : ∀ job, s.jobs jobId = some job → LeasesNone (act job) s) :
    LeasesNone (withLease jobId workerId missing refused act) s := by
  refine leasesNone_hget leasesNone_return (fun job hjob => ?_)
  show LeasesNone (if _ then _ else _) s
  split
  · exact hact job hjob
  · exact leasesNone_return

theorem startAttemptsBatch_leasesNone {workerId : String} :
    ∀ (jobs : List (Uuid × Uuid)) (results : List (Uuid × Uuid × Int)) (s : Store),
      LeasesNone (startAttemptsBatch workerId jobs results) s
  | [], _, _ => leasesNone_return
  | (jobId, attemptId) :: rest, results, s => by
      unfold startAttemptsBatch
      refine withLease_leasesNone fun job _ => ?_
      exact leasesNone_call (fun _ _ h => by cases h) fun _ _ _ => startAttemptsBatch_leasesNone rest _ _

theorem markSucceeded_leasesNone {nextId : Uuid} {now : DateTime} {jobId : Uuid} {workerId : String} (hk : Keyed s) :
    LeasesNone (markSucceeded nextId now jobId workerId) s := by
  refine withLease_leasesNone fun job hjob => ?_
  have hid : job.id = jobId := hk jobId job hjob
  cases hnext : nextJob now nextId (succeededJob now job) with
  | none => exact leasesNone_return
  | some next =>
      refine leasesNone_hset (.of_status "succeeded" rfl (by decide) hid) fun s₁ _ => ?_
      refine leasesNone_call (fun _ _ h => by cases h) fun _ s₂ _ => ?_
      cases next with
      | none => exact leasesNone_return
      | some next =>
          obtain ⟨hnextId, _, hst⟩ := nextJob_spec hnext
          refine leasesNone_hset (.of_status "queued" hst (by decide) hnextId) fun s₃ _ => ?_
          exact leasesNone_call (fun _ _ h => by cases h) fun _ _ _ => leasesNone_return

theorem cancelJob_leasesNone {now : DateTime} {jobId : Uuid} {workerId : Option String} (hk : Keyed s) :
    LeasesNone (cancelJob now jobId workerId) s := by
  refine leasesNone_hget leasesNone_return (fun job hjob => ?_)
  have hid : job.id = jobId := hk jobId job hjob
  have hlast : ∀ s', LeasesNone (cancelRecord now jobId job) s' := fun s' =>
    leasesNone_hset (.of_status "canceled" rfl (by decide) hid) fun _ _ => leasesNone_return
  show LeasesNone (cancelFound now jobId workerId job) s
  unfold cancelFound
  split
  · exact leasesNone_return
  split
  · exact leasesNone_call (fun _ _ h => by cases h) fun _ s₁ _ => hlast s₁
  · exact hlast s

/-- **No call but a lease brings a job under one.** -/
theorem serve_noLease (call : Call) (hk : Keyed s)
    (hcall : ∀ now queue workerId leaseSeconds batchSize,
      call ≠ .leaseJobsBatch now queue workerId leaseSeconds batchSize) : NoLease s (call.serve s).2 := by
  show LeasesNone call.program s
  cases call with
  | enqueue jobId now job => exact enqueue_leasesNone
  | leaseJobsBatch now queue workerId leaseSeconds batchSize => exact absurd rfl (hcall _ _ _ _ _)
  | reapExpiredLocks order now =>
      refine leasesNone_call (fun _ _ h => by cases h) fun keys s₁ h₁ => ?_
      exact reapKeys_leasesNone _ 0 s₁ (hk.noLease h₁)
  | startAttemptsBatch workerId jobs => exact startAttemptsBatch_leasesNone jobs [] s
  | markSucceeded nextId now jobId workerId => exact markSucceeded_leasesNone hk
  -- these write the record back with another status
  | rescheduleForRetry now jobId workerId nextRunAt =>
      refine withLease_leasesNone fun job hjob => ?_
      have hid : job.id = jobId := hk jobId job hjob
      refine leasesNone_hset (.of_status "queued" rfl (by decide) hid) fun _ _ => ?_
      refine leasesNone_call (fun _ _ h => by cases h) fun _ _ _ => ?_
      exact leasesNone_call (fun _ _ h => by cases h) fun _ _ _ => leasesNone_return
  | markDlq dlqAt now jobId workerId reasonCode =>
      refine withLease_leasesNone fun job hjob => ?_
      have hid : job.id = jobId := hk jobId job hjob
      refine leasesNone_hset (.of_status "dlq" rfl (by decide) hid) fun _ _ => ?_
      exact leasesNone_call (fun _ _ h => by cases h) fun _ _ _ => leasesNone_return
  | extendLease now jobId workerId leaseSeconds =>
      refine withLease_leasesNone fun job hjob => ?_
      cases Chrono.addSeconds now leaseSeconds with
      | none => exact leasesNone_return
      | some lockExpiresAt => exact leasesNone_hset (.kept hjob rfl rfl rfl) fun _ _ => leasesNone_return
  | cancelJob now jobId workerId => exact cancelJob_leasesNone hk

/-! ### A lease -/

/-- What a lease has done so far: the jobs it holds are the worker's if they are running, and to the others it has given
    no lease. -/
structure Leasing (s₀ s : Store) (workerId : String) (leased : List Job) : Prop where
  keyed : Keyed s
  owned : ∀ id job, id ∈ leased.map (·.id) → s.jobs id = some job → job.status = "running" →
    job.lockedBy = some workerId
  others : ∀ id, id ∉ leased.map (·.id) → Unleased id (s₀.jobs id) (s.jobs id)

variable {s₀ : Store} {workerId : String} {leased : List Job}

theorem Leasing.noLease (h : Leasing s₀ s workerId leased) (hn : NoLease s s') : Leasing s₀ s' workerId leased where
  keyed := h.keyed.noLease hn
  owned id job hid hjob hrun := by
    have hentry := hn id
    rw [hjob] at hentry
    obtain ⟨job₀, hbefore, hst, hby⟩ := hentry.owner hrun
    exact hby.symm.trans (h.owned id job₀ hid hbefore hst)
  others id hid := (h.others id hid).trans (hn id)

/-- A job is added to the batch. -/
theorem Leasing.add (h : Leasing s₀ s workerId leased) {now lockExpiresAt : DateTime} {jobId : Uuid} {job : Job}
    (hjob : s.jobs jobId = some job) :
    Leasing s₀ ((Command.hset jobId (leasedJob now lockExpiresAt workerId job)).exec s).2 workerId
      (leased ++ [leasedJob now lockExpiresAt workerId job]) := by
  have hid : job.id = jobId := h.keyed _ _ hjob
  have hother : ∀ id, id ≠ jobId → ((Command.hset jobId (leasedJob now lockExpiresAt workerId job)).exec s).2.jobs id =
      s.jobs id := fun id hne => Command.exec_jobs (fun job' heq => hne (by cases heq; rfl))
  refine ⟨fun id job' hjob' => ?_, fun id job' hmem hjob' hrun => ?_, fun id hnot => ?_⟩
  · by_cases heq : id = jobId
    · subst heq
      rw [Command.exec_hset] at hjob'
      cases hjob'
      exact hid
    · rw [hother id heq] at hjob'
      exact h.keyed id job' hjob'
  · by_cases heq : id = jobId
    · subst heq
      rw [Command.exec_hset] at hjob'
      cases hjob'
      rfl
    · rw [hother id heq] at hjob'
      rw [List.map_append, List.mem_append, List.map_singleton, List.mem_singleton] at hmem
      exact h.owned id job' (hmem.resolve_right fun hid' => heq (hid'.trans hid)) hjob' hrun
  · rw [List.map_append, List.mem_append, List.map_singleton, List.mem_singleton, not_or] at hnot
    rw [hother id fun heq => hnot.2 (heq.trans hid.symm)]
    exact h.others id hnot.1

/-- Run from `s`, the program returns the batch of a lease that began in `s₀`. -/
def LeasesAll (s₀ : Store) (workerId : String) (p : Cmds (Outcome Answer)) (s : Store) : Prop :=
  ∃ leased, (p.alone Command.exec s).1 = .ok (.jobs leased) ∧
    Leasing s₀ (p.alone Command.exec s).2 workerId leased

theorem grants_call {c : Command} {k : c.Reply → Cmds (Outcome Answer)}
    (h : LeasesAll s₀ workerId (k (c.exec s).1) (c.exec s).2) : LeasesAll s₀ workerId (.call c k) s := h

/-- The loop of a lease returns the batch it has made. -/
theorem leaseEach_leasesAll {queue : String} {now lockExpiresAt : DateTime} :
    ∀ (n : Nat) (leased : List Job) (s : Store), Leasing s₀ s workerId leased →
      LeasesAll s₀ workerId (leaseEach queue workerId now lockExpiresAt n leased) s
  | 0, leased, s, h => ⟨leased, rfl, h⟩
  | n + 1, leased, s, h => by
      have hother : ∀ (c : Command) (s₁ : Store), (∀ id job, c ≠ .hset id job) → Leasing s₀ s₁ workerId leased →
          Leasing s₀ (c.exec s₁).2 workerId leased := fun c s₁ hc h₁ => h₁.noLease (noLease_exec hc)
      unfold leaseEach
      refine grants_call ?_
      have h₁ := hother (.lmove (queueKey queue) (processingKey queue workerId)) s (fun _ _ h => by cases h) h
      -- `LMOVE` gives an id, or the queue is empty and the batch is done
      generalize (Command.lmove (queueKey queue) (processingKey queue workerId)).exec s = answer at h₁ ⊢
      obtain ⟨_ | jobId, s₁⟩ := answer
      · exact ⟨leased, rfl, h₁⟩
      refine grants_call ?_
      show LeasesAll s₀ workerId (Prog.bind (.done (s₁.jobs jobId)) _) s₁
      cases hjob : s₁.jobs jobId with
      | none => exact leaseEach_leasesAll n leased s₁ h₁
      | some job =>
          show LeasesAll s₀ workerId (if now < job.runAt then _ else _) s₁
          split
          · -- not due yet: back to the queue
            refine grants_call (grants_call (leaseEach_leasesAll n leased _ ?_))
            refine hother _ _ (fun _ _ h => by cases h) ?_
            exact hother _ _ (fun _ _ h => by cases h) h₁
          split
          · -- past its deadline: dead-lettered, and taken off the list
            refine grants_call (grants_call (leaseEach_leasesAll n leased _ ?_))
            refine hother _ _ (fun _ _ h => by cases h) ?_
            exact h₁.noLease (noLease_hset (.of_status "dlq" rfl (by decide) (h₁.keyed jobId job hjob)))
          · exact grants_call (leaseEach_leasesAll n _ _ (h₁.add hjob))

/-- A lease that panics sends no command; any other returns the batch it has made. -/
theorem serve_lease (hk : Keyed s) (now : DateTime) (queue workerId : String) (leaseSeconds batchSize : Int) :
    (Call.leaseJobsBatch now queue workerId leaseSeconds batchSize).serve s = (.panic, s) ∨
      ∃ leased, ((Call.leaseJobsBatch now queue workerId leaseSeconds batchSize).serve s).1 = .ok (.jobs leased) ∧
        Leasing s ((Call.leaseJobsBatch now queue workerId leaseSeconds batchSize).serve s).2 workerId leased := by
  have hstart : Leasing s s workerId [] :=
    ⟨hk, fun _ _ h => (by cases h), fun _ _ => .same⟩
  show (leaseJobsBatch now queue workerId leaseSeconds batchSize).alone Command.exec s = _ ∨
    LeasesAll s workerId (leaseJobsBatch now queue workerId leaseSeconds batchSize) s
  unfold leaseJobsBatch
  cases Chrono.addSeconds now leaseSeconds with
  | none => exact Or.inl rfl
  | some lockExpiresAt => exact Or.inr (leaseEach_leasesAll _ [] s hstart)

/-! ## The history agrees with the store -/

/-- **The invariant.** A running job was leased last by the worker in its record, and a lease that was reaped is
    over. -/
structure Session.Ok (σ : Session) : Prop where
  keyed : Keyed σ.store
  holder : ∀ id job workerId, σ.store.jobs id = some job → job.status = "running" → job.lockedBy = some workerId →
    σ.history.lastLease id workerId = σ.history.leases id
  ended : ∀ id n, σ.history.reclaimed id n = true →
    n ≤ σ.history.leases id ∧ (n = σ.history.leases id → σ.store.running id = false)

/-- What a lease adds to the history. -/
theorem foldl_lease (workerId : String) (ids : List Uuid) :
    ∀ (h : History) (id : Uuid),
      let h' := ids.foldl (fun h id => h.lease workerId id) h
      h'.reclaimed = h.reclaimed ∧ h'.handed = h.handed ∧
        (id ∉ ids → h'.leases id = h.leases id ∧ h'.lastLease id = h.lastLease id) ∧
        (id ∈ ids → h.leases id < h'.leases id ∧ h'.lastLease id workerId = h'.leases id) := by
  induction ids with
  | nil => exact fun h id => ⟨rfl, rfl, fun _ => ⟨rfl, rfl⟩, fun hid => by cases hid⟩
  | cons first rest ih =>
      intro h id
      obtain ⟨hrec, hhand, hout, hin⟩ := ih (h.lease workerId first) id
      refine ⟨hrec, hhand, fun hid => ?_, fun hid => ?_⟩
      · rw [List.mem_cons, not_or] at hid
        obtain ⟨h₁, h₂⟩ := hout hid.2
        exact ⟨h₁.trans (Function.update_of_ne hid.1 ..), h₂.trans (Function.update_of_ne hid.1 ..)⟩
      · have hle : h.leases id ≤ (h.lease workerId first).leases id := by
          by_cases heq : id = first
          · subst heq
            show _ ≤ Function.update h.leases id (h.leases id + 1) id
            rw [Function.update_self]
            omega
          · show _ ≤ Function.update h.leases first (h.leases first + 1) id
            rw [Function.update_of_ne heq]
        by_cases hrest : id ∈ rest
        · obtain ⟨h₁, h₂⟩ := hin hrest
          exact ⟨hle.trans_lt h₁, h₂⟩
        · obtain ⟨h₁, h₂⟩ := hout hrest
          obtain rfl : id = first := (List.mem_cons.mp hid).resolve_right hrest
          have hleases : (h.lease workerId id).leases id = h.leases id + 1 := Function.update_self ..
          have hlast : (h.lease workerId id).lastLease id workerId = h.leases id + 1 := by
            show Function.update h.lastLease id _ id workerId = _
            rw [Function.update_self, Function.update_self]
          constructor
          · show h.leases id < (rest.foldl (fun h id => h.lease workerId id) (h.lease workerId id)).leases id
            rw [h₁, hleases]
            omega
          · show (rest.foldl (fun h id => h.lease workerId id) (h.lease workerId id)).lastLease id workerId =
              (rest.foldl (fun h id => h.lease workerId id) (h.lease workerId id)).leases id
            rw [h₁, h₂, hleases, hlast]

theorem foldl_hand (workerId : String) (attempts : List (Uuid × Uuid × Int)) :
    ∀ h : History,
      let h' := attempts.foldl (fun h a => h.hand workerId a.1 a.2.1) h
      h'.leases = h.leases ∧ h'.lastLease = h.lastLease ∧ h'.reclaimed = h.reclaimed := by
  induction attempts with
  | nil => exact fun h => ⟨rfl, rfl, rfl⟩
  | cons a rest ih => exact fun h => ih (h.hand workerId a.1 a.2.1)

theorem running_iff : s.running id = true ↔ ∃ job, s.jobs id = some job ∧ job.status = "running" := by
  rw [Store.running, Option.any_eq_true]
  simp only [beq_iff_eq]

/-- A job that is not running starts to run under a lease only. -/
theorem Unleased.running (h : Unleased id (s.jobs id) (s'.jobs id)) (hrun : s.running id = false) :
    s'.running id = false := by
  by_contra hnot
  rw [Bool.not_eq_false, running_iff] at hnot
  obtain ⟨job, hjob, hst⟩ := hnot
  rw [hjob] at h
  obtain ⟨job₀, hbefore, hst₀, _⟩ := h.owner hst
  rw [running_iff.mpr ⟨job₀, hbefore, hst₀⟩] at hrun
  cases hrun

variable {σ σ' : Session}

/-- A call that brings no job under a lease, and adds to the history no more than leases that are over. -/
theorem Session.Ok.noLease (h : σ.Ok) (hn : NoLease σ.store s') {history : History}
    (hleases : history.leases = σ.history.leases) (hlast : history.lastLease = σ.history.lastLease)
    (hover : ∀ id n, history.reclaimed id n = true →
      σ.history.reclaimed id n = true ∨ (n = σ.history.leases id ∧ s'.running id = false)) :
    Session.Ok { store := s', history := history } where
  keyed := h.keyed.noLease hn
  holder id job workerId hjob hst hby := by
    have hentry := hn id
    have hjob' : s'.jobs id = some job := hjob
    rw [hjob'] at hentry
    obtain ⟨job₀, hbefore, hst₀, hby₀⟩ := hentry.owner hst
    show history.lastLease id workerId = history.leases id
    rw [hleases, hlast]
    exact h.holder id job₀ workerId hbefore hst₀ (hby₀.trans hby)
  ended id n hrec := by
    show n ≤ history.leases id ∧ (n = history.leases id → s'.running id = false)
    rw [hleases]
    rcases hover id n hrec with hold | ⟨hnow, hrun⟩
    · obtain ⟨hle, hidle⟩ := h.ended id n hold
      exact ⟨hle, fun heq => (hn id).running (hidle heq)⟩
    · exact ⟨hnow.le, fun _ => hrun⟩

/-- A lease keeps the invariant. -/
theorem Session.Ok.lease (h : σ.Ok) {workerId : String} (hl : Leasing σ.store s' workerId leased) :
    Session.Ok { store := s', history := (leased.map (·.id)).foldl (fun h id => h.lease workerId id) σ.history } := by
  have hfold := foldl_lease workerId (leased.map (·.id)) σ.history
  generalize (leased.map (·.id)).foldl (fun h id => h.lease workerId id) σ.history = history at hfold ⊢
  refine ⟨hl.keyed, fun id job worker hjob hst hby => ?_, fun id n hrec => ?_⟩
  · -- a job of the batch has the new lease; the holder of any other keeps the one it had
    show history.lastLease id worker = history.leases id
    have hjob' : s'.jobs id = some job := hjob
    obtain ⟨_, _, hout, hin⟩ := hfold id
    by_cases hmem : id ∈ leased.map (·.id)
    · have howner := hl.owned id job hmem hjob' hst
      rw [hby, Option.some.injEq] at howner
      rw [howner]
      exact (hin hmem).2
    · obtain ⟨hleases, hlast⟩ := hout hmem
      have hentry := hl.others id hmem
      rw [hjob'] at hentry
      obtain ⟨job₀, hbefore, hst₀, hby₀⟩ := hentry.owner hst
      rw [hleases, hlast]
      exact h.holder id job₀ worker hbefore hst₀ (hby₀.trans hby)
  · show n ≤ history.leases id ∧ (n = history.leases id → s'.running id = false)
    obtain ⟨hreclaimed, _, hout, hin⟩ := hfold id
    have hold : σ.history.reclaimed id n = true := hreclaimed ▸ hrec
    obtain ⟨hle, hidle⟩ := h.ended id n hold
    by_cases hmem : id ∈ leased.map (·.id)
    · -- the job is leased again, so its old leases are behind
      have hlt := hle.trans_lt (hin hmem).1
      exact ⟨hlt.le, fun heq => absurd heq hlt.ne⟩
    · rw [(hout hmem).1]
      exact ⟨hle, fun heq => (hl.others id hmem).running (hidle heq)⟩

/-- **The step lemma.** Every request keeps the invariant. -/
theorem Session.Ok.apply (h : σ.Ok) (request : Request) : (σ.apply request).Ok := by
  obtain ⟨call, attemptId⟩ := request
  have hsame : ∀ {history : History}, history = σ.history →
      (∀ now queue workerId leaseSeconds batchSize,
        call ≠ .leaseJobsBatch now queue workerId leaseSeconds batchSize) →
      Session.Ok { store := (call.serve σ.store).2, history := history } := by
    rintro _ rfl hcall
    exact h.noLease (serve_noLease call h.keyed hcall) rfl rfl fun _ _ hrec => Or.inl hrec
  unfold Session.apply
  -- only a lease starts one, only `start_attempts_batch` hands out ids, and only the reaper ends leases
  cases call with
  | leaseJobsBatch now queue workerId leaseSeconds batchSize =>
      rcases serve_lease h.keyed now queue workerId leaseSeconds batchSize with hpanic | ⟨leased, hret, hl⟩
      · simp only [hpanic]
        exact h
      · simp only [hret]
        exact h.lease hl
  | startAttemptsBatch workerId jobs =>
      have hn := serve_noLease (.startAttemptsBatch workerId jobs) h.keyed (fun _ _ _ _ _ h => by cases h)
      cases hret : ((Call.startAttemptsBatch workerId jobs).serve σ.store).1 with
      | ok answer =>
          cases answer with
          | started attempts =>
              simp only [hret]
              obtain ⟨hleases, hlast, hrec⟩ := foldl_hand workerId attempts σ.history
              exact h.noLease hn hleases hlast fun id n hn => Or.inl (hrec ▸ hn)
          | _ => exact hsame (by simp only [hret]; rfl) (fun _ _ _ _ _ h => by cases h)
      | err e => exact hsame (by simp only [hret]; rfl) (fun _ _ _ _ _ h => by cases h)
      | panic => exact hsame (by simp only [hret]; rfl) (fun _ _ _ _ _ h => by cases h)
  | reapExpiredLocks order now =>
      have hn := serve_noLease (.reapExpiredLocks order now) h.keyed (fun _ _ _ _ _ h => by cases h)
      refine h.noLease hn rfl rfl fun id n hrec => ?_
      have hrec' : (σ.history.reclaimed id n || (σ.store.running id &&
          !((Call.reapExpiredLocks order now).serve σ.store).2.running id && n == σ.history.leases id)) = true := hrec
      simp only [Bool.or_eq_true, Bool.and_eq_true, Bool.not_eq_true', beq_iff_eq] at hrec'
      exact hrec'.imp_right fun hnew => ⟨hnew.2, hnew.1.2⟩
  | enqueue jobId now job => exact hsame rfl (fun _ _ _ _ _ h => by cases h)
  | markSucceeded nextId now jobId workerId => exact hsame rfl (fun _ _ _ _ _ h => by cases h)
  | rescheduleForRetry now jobId workerId nextRunAt => exact hsame rfl (fun _ _ _ _ _ h => by cases h)
  | markDlq dlqAt now jobId workerId reasonCode => exact hsame rfl (fun _ _ _ _ _ h => by cases h)
  | extendLease now jobId workerId leaseSeconds => exact hsame rfl (fun _ _ _ _ _ h => by cases h)
  | cancelJob now jobId workerId => exact hsame rfl (fun _ _ _ _ _ h => by cases h)

/-! ## The law -/

/-- A caller without the lease of a job that has a record gets the refusal, and changes nothing. -/
theorem withLease_refuses {jobId : Uuid} {workerId : String} {missing refused : Outcome Answer}
    {act : Job → Cmds (Outcome Answer)} {job : Job} (hjob : s.jobs jobId = some job)
    (h : ¬holdsLease workerId job = true) :
    (withLease jobId workerId missing refused act).alone Command.exec s = (refused, s) := by
  show (Prog.bind (.done (s.jobs jobId)) _).alone Command.exec s = (refused, s)
  rw [hjob]
  show Prog.alone Command.exec (if holdsLease workerId job then act job else .done refused) s = (refused, s)
  rw [if_neg h]
  rfl

/-- So an acknowledgement by another worker than the one in the record is refused. -/
theorem ack_refuses {call : Call} {jobId : Uuid} {workerId : String} (hack : call.ack = some (jobId, workerId))
    {job : Job} (hjob : s.jobs jobId = some job) (h : ¬holdsLease workerId job = true) :
    ∃ target, call.serve s = (illegalTransition target jobId workerId, s) := by
  cases call with
  | markSucceeded nextId now id worker =>
      cases hack
      exact ⟨"completed", withLease_refuses hjob h⟩
  | rescheduleForRetry now id worker nextRunAt =>
      cases hack
      exact ⟨"retry_wait", withLease_refuses hjob h⟩
  | markDlq dlqAt now id worker reasonCode =>
      cases hack
      exact ⟨"dlq", withLease_refuses hjob h⟩
  | _ => cases hack

theorem reachable_ok (h : (sessionSystem.restrict OwnLease).Reachable σ) : σ.Ok := by
  refine h.invariant (I := Session.Ok) ?_ ?_
  · rintro _ rfl
    exact ⟨fun _ _ h => (by cases h), fun _ _ _ h => (by cases h), fun _ _ h => (by cases h)⟩
  · rintro σ request _ _ hok ⟨⟨_, rfl⟩, _⟩
    exact hok.apply request

/-- **When acknowledgements are fenced.** In every run, calls one after another, in which no worker id acknowledges a
    job that it runs with an attempt id it was not handed for it, or that it has leased again since, and none acknowledges
    a job without a record: an acknowledgement is accepted, and changes a job, only with an attempt id of its current
    lease, and never with one of a lease that was reaped. -/
theorem attempt_fencing {request : Request} (hσ : (sessionSystem.restrict OwnLease).Reachable σ)
    (hstep : (sessionSystem.restrict OwnLease).step σ request σ') : FencingLaw σ request σ' := by
  have hok := reachable_ok hσ
  obtain ⟨⟨_, rfl⟩, hown⟩ := hstep
  -- an accepted attempt is of the last lease of the worker, which is the last of the job
  have hcurrent : ∀ jobId workerId, request.call.ack = some (jobId, workerId) →
      σ.Accepts request ∨ (σ.apply request).store.jobs jobId ≠ σ.store.jobs jobId →
        σ.history.handed request.attemptId = some ⟨jobId, workerId, σ.history.leases jobId⟩ ∧
          σ.store.running jobId = true := by
    intro jobId workerId hack haccepted
    obtain ⟨job, hjob⟩ := hown.stored jobId workerId hack
    by_cases hholds : holdsLease workerId job = true
    · have hhand := hown.handed jobId workerId job hack hjob hholds
      simp only [holdsLease, Bool.and_eq_true, beq_iff_eq] at hholds
      rw [hok.holder jobId job workerId hjob hholds.1 hholds.2] at hhand
      exact ⟨hhand, running_iff.mpr ⟨job, hjob, hholds.1⟩⟩
    · -- any other worker is refused
      obtain ⟨target, hserve⟩ := ack_refuses hack hjob hholds
      rcases haccepted with ⟨answer, hok⟩ | hmoved
      · rw [hserve] at hok
        cases hok
      · exact absurd (congrArg (fun r => r.2.jobs jobId) hserve) hmoved
  constructor
  · intro jobId workerId hack haccepted
    exact ⟨_, (hcurrent jobId workerId hack haccepted).1, rfl, rfl⟩
  · intro jobId workerId hand hack hhand hjob hrec
    rw [← not_ne_iff, ← not_or]
    intro haccepted
    obtain ⟨hhand', hrun⟩ := hcurrent jobId workerId hack haccepted
    rw [hhand] at hhand'
    obtain rfl := Option.some.inj hhand'
    rw [(hok.ended jobId _ hrec).2 rfl] at hrun
    cases hrun

/-! ### One worker id for every process -/

/-- The order of the keys as the server has them. -/
def asListed : KeyOrder := { arrange := fun keys => keys, perm := fun _ => .refl _ }

/-- A process of the worker `quickstart-worker` leases a job, starts an attempt and stalls; the reaper gives the job
    back, and another process of the same worker id leases it, and starts an attempt in turn. -/
def stalled : List Request :=
  [⟨.enqueue 1 0 email, 0⟩, ⟨.leaseJobsBatch 5 "emails" "quickstart-worker" 10 1, 0⟩,
    ⟨.startAttemptsBatch "quickstart-worker" [(1, 9)], 0⟩, ⟨.reapExpiredLocks asListed 20000000000, 0⟩,
    ⟨.leaseJobsBatch 21000000000 "emails" "quickstart-worker" 10 1, 0⟩,
    ⟨.startAttemptsBatch "quickstart-worker" [(1, 10)], 0⟩]

/-- The server before the first request. -/
def Session.first : Session := { store := .empty, history := .empty }

/-- The session after the first `n` of these requests. -/
def stalledAfter (n : Nat) : Session :=
  (stalled.take n).foldl Session.apply .first

/-- The late acknowledgement of the first process. -/
def lateAck : Request := ⟨.markSucceeded 7 22000000000 1 "quickstart-worker", 9⟩

/-- Calls that make no attempt id may always come. -/
theorem newAttempts_of_nil {call : Call} (h : call.attemptIds = []) : σ.NewAttempts call := by
  unfold Session.NewAttempts
  rw [h]
  exact ⟨.nil, fun _ ha => absurd ha List.not_mem_nil⟩

theorem stalledAfter_reachable : sessionSystem.Reachable (stalledAfter 5) := by
  have h₀ : sessionSystem.Reachable (stalledAfter 0) := .start rfl
  have h₁ : sessionSystem.Reachable (stalledAfter 1) := h₀.next (i := stalled[0]) ⟨newAttempts_of_nil rfl, rfl⟩
  have h₂ : sessionSystem.Reachable (stalledAfter 2) := h₁.next (i := stalled[1]) ⟨newAttempts_of_nil rfl, rfl⟩
  have h₃ : sessionSystem.Reachable (stalledAfter 3) :=
    h₂.next (i := stalled[2]) ⟨⟨by decide, by decide⟩, rfl⟩
  have h₄ : sessionSystem.Reachable (stalledAfter 4) := h₃.next (i := stalled[3]) ⟨newAttempts_of_nil rfl, rfl⟩
  exact h₄.next (i := stalled[4]) ⟨newAttempts_of_nil rfl, rfl⟩

/-- The late acknowledgement completes the job of the second process; and on a server with nothing in it, it is accepted
    too. -/
theorem stale_ack_accepted : sessionSystem.Reachable (stalledAfter 5) ∧
    sessionSystem.step (stalledAfter 5) lateAck ((stalledAfter 5).apply lateAck) ∧
    (stalledAfter 5).history.handed 9 = some ⟨1, "quickstart-worker", 1⟩ ∧
    (stalledAfter 5).history.reclaimed 1 1 = true ∧ (stalledAfter 5).history.leases 1 = 2 ∧
    (((stalledAfter 5).apply lateAck).store.jobs 1).map (·.status) = some "succeeded" ∧
    ¬FencingLaw (stalledAfter 5) lateAck ((stalledAfter 5).apply lateAck) ∧
    ¬FencingLaw .first lateAck (Session.first.apply lateAck) := by
  have hrec : (stalledAfter 5).history.reclaimed 1 1 = true := by decide
  have hdone : (((stalledAfter 5).apply lateAck).store.jobs 1).map (·.status) = some "succeeded" := by decide
  have hrun : ((stalledAfter 5).store.jobs 1).map (·.status) = some "running" := by decide
  refine ⟨stalledAfter_reachable, ⟨newAttempts_of_nil rfl, rfl⟩, by decide, hrec, by decide, hdone, fun hlaw => ?_,
    fun hlaw => ?_⟩
  · rw [(hlaw.stale 1 "quickstart-worker" ⟨1, "quickstart-worker", 1⟩ rfl (by decide) rfl hrec).2, hrun] at hdone
    exact absurd hdone (by decide)
  · obtain ⟨hand, hhand, _⟩ := hlaw.current 1 "quickstart-worker" rfl (Or.inl ⟨_, rfl⟩)
    cases hhand

/-- In the same run, the second process starts an attempt of its own and completes the job with it: the law holds of that
    request, which is accepted. -/
theorem attempt_fencing_second_lease :
    (stalledAfter 6).Accepts ⟨.markSucceeded 7 23000000000 1 "quickstart-worker", 10⟩ ∧
    FencingLaw (stalledAfter 6) ⟨.markSucceeded 7 23000000000 1 "quickstart-worker", 10⟩
      ((stalledAfter 6).apply ⟨.markSucceeded 7 23000000000 1 "quickstart-worker", 10⟩) := by
  have howned : ∀ {σ σ' : Session} {request : Request}, request.call.ack = none → OwnLease σ request σ' := by
    intro σ σ' request hack
    constructor <;> intros <;> simp_all
  have h₀ : (sessionSystem.restrict OwnLease).Reachable (stalledAfter 0) := .start rfl
  have h₁ : (sessionSystem.restrict OwnLease).Reachable (stalledAfter 1) :=
    h₀.next (i := stalled[0]) ⟨⟨newAttempts_of_nil rfl, rfl⟩, howned rfl⟩
  have h₂ : (sessionSystem.restrict OwnLease).Reachable (stalledAfter 2) :=
    h₁.next (i := stalled[1]) ⟨⟨newAttempts_of_nil rfl, rfl⟩, howned rfl⟩
  have h₃ : (sessionSystem.restrict OwnLease).Reachable (stalledAfter 3) :=
    h₂.next (i := stalled[2]) ⟨⟨⟨by decide, by decide⟩, rfl⟩, howned rfl⟩
  have h₄ : (sessionSystem.restrict OwnLease).Reachable (stalledAfter 4) :=
    h₃.next (i := stalled[3]) ⟨⟨newAttempts_of_nil rfl, rfl⟩, howned rfl⟩
  have h₅ : (sessionSystem.restrict OwnLease).Reachable (stalledAfter 5) :=
    h₄.next (i := stalled[4]) ⟨⟨newAttempts_of_nil rfl, rfl⟩, howned rfl⟩
  have h₆ : (sessionSystem.restrict OwnLease).Reachable (stalledAfter 6) :=
    h₅.next (i := stalled[5]) ⟨⟨⟨by decide, by decide⟩, rfl⟩, howned rfl⟩
  refine ⟨⟨_, rfl⟩, attempt_fencing h₆ ⟨⟨newAttempts_of_nil rfl, rfl⟩, ?_, ?_⟩⟩
  · rintro _ _ ⟨⟩
    exact ⟨_, rfl⟩
  · rintro _ _ _ ⟨⟩ _ _
    decide

end Azums.Redis
