import Azums.Redis.Footprint

/-!
# `Redis.Terminal` — when a terminal status is final

`cancel_job` and the acknowledgements change a job's record and leave ids behind in the lists: a cancelled job stays in
its queue, and a client that dies before its `LREM` leaves the id in a processing list. `lease_jobs_batch` and
`reap_expired_locks` go by the lists, and rewrite the record they find there without a look at its status. And no
operation rechecks what it read: between its `HGET` and its `HSET` the job may have become terminal.

`terminal_law` says when a terminal status is final all the same: in every run in which no lease and no reaper comes
upon a terminal record that it would revive, and no terminal status is written while another client is about to
overwrite it or to hand the job out. `cancelled_job_leased` is the shortest run in which it is not: enqueue, cancel,
lease, one after the other.

The invariant is about what each client may still do (`Redis.Footprint`): no client that is running may write another
status over a terminal record before it reads that record again, and none is about to return the job from a lease.
-/

namespace Azums.Redis

/-! ## What clients are told -/

section Answers

variable {id : Uuid}

/-- The record that an answer tells of. -/
def Command.found : (c : Command) → c.Reply → Option (Uuid × Job)
  | .hget id, r => r.map (fun job => (id, job))
  | _, _ => none

/-- The answers in which a record carries the id it was asked for by. -/
def Genuine (c : Command) (r : c.Reply) : Prop :=
  ∀ id job, c.found r = some (id, job) → job.id = id

theorem genuine_hget {id : Uuid} {r : Option Job} :
    Genuine (.hget id) r ↔ ∀ job, r = some job → job.id = id := by
  constructor
  · intro h job hr
    exact h id job (by rw [hr]; rfl)
  · intro h id' job hfound
    obtain ⟨job', hr, heq⟩ := Option.map_eq_some_iff.mp hfound
    cases heq
    exact h job hr

/-- The only answers that tell of a record are those to `HGET`. -/
theorem Command.found_hget {c : Command} {s : Store} {job : Job} (h : c.found (c.exec s).1 = some (id, job)) :
    c = .hget id ∧ s.jobs id = some job := by
  cases c with
  | hget id' =>
      obtain ⟨job', hr, heq⟩ := Option.map_eq_some_iff.mp h
      cases heq
      exact ⟨rfl, hr⟩
  | _ => cases h

end Answers

/-! ## The law -/

/-- What a step should do to the records: a terminal status stays, and no lease returns a job whose record has one. -/
structure TerminalLaw (s : RedisPool) (move : Move Nat Call) (s' : RedisPool) : Prop where
  final : ∀ id job, s.store.jobs id = some job → Terminal job.status →
    ∃ job', s'.store.jobs id = some job' ∧ job'.status = job.status
  unleased : ∀ i call leased, move = .finish i → s.client i = some (call, .done (.ok (.jobs leased))) →
    ∀ job ∈ leased, ∀ stored, s.store.jobs job.id = some stored → ¬Terminal stored.status

/-- What `lease_jobs_batch` and `reap_expired_locks` make of a terminal record they find: the lease takes it unless it
    is not due, or buries it if its deadline has passed, which changes nothing for a job in the DLQ; the reaper takes
    it if its lock has run out. -/
def Revives (call : Call) (job : Job) : Prop :=
  match call with
  | .leaseJobsBatch now _ _ _ _ =>
      ¬now < job.runAt ∧ ¬(job.status = "dlq" ∧ job.deadlineAt.any (fun deadline => decide (deadline < now)))
  | .reapExpiredLocks _ now => job.lockExpiresAt.any (fun exp => decide (exp ≤ now))
  | _ => False

/-- `p` may return the job `id` from a lease without writing its record again. -/
def Returns (id : Uuid) : Cmds (Outcome Answer) → Prop
  | .done a => ∃ leased, a = .ok (.jobs leased) ∧ ∃ job ∈ leased, job.id = id
  | .call c k => ¬c.puts (fun _ => True) id ∧ ∃ r, Genuine c r ∧ Returns id (k r)

/-- The client is about to put another status than `status` under `id`, or to hand the job out. -/
def Holds (id : Uuid) (status : String) (p : Cmds (Outcome Answer)) : Prop :=
  Writes (fun job => job.status ≠ status) id p ∨ Returns id p

/-- The steps that keep to both conditions: a terminal record that a client reads is not one it revives, and a terminal
    status is written only where no client, the writer after its write included, holds the job. -/
def CarefulStep (s : RedisPool) (move : Move Nat Call) (s' : RedisPool) : Prop :=
  ∀ i call c k, move = .exec i → s.client i = some (call, .call c k) →
    (∀ id job, c = .hget id → s.store.jobs id = some job → Terminal job.status → ¬Revives call job) ∧
    (∀ id job, c = .hset id job → Terminal job.status →
      ∀ j call' p, s'.client j = some (call', p) → ¬Holds id job.status p)

/-! ## What each call respects -/

/-- Whether a call hands out jobs. -/
def Call.Leases : Call → Prop
  | .leaseJobsBatch _ _ _ _ _ => True
  | _ => False

/-- Along `p`, every record goes under its own id, a terminal record that the client does not revive is left as it is
    until it is read again, and only a lease returns jobs. -/
def Respects (call : Call) : Cmds (Outcome Answer) → Prop
  | .done a => (∃ leased, a = .ok (.jobs leased)) → call.Leases
  | .call c k =>
      (∀ id job, c = .hset id job → job.id = id) ∧
      ∀ r, Genuine c r → Respects call (k r) ∧
        ∀ id job, c.found r = some (id, job) → Terminal job.status → ¬Revives call job →
          ¬Writes (fun v => v.status ≠ job.status) id (k r)

section Rules

variable {call : Call} {id : Uuid}

theorem respects_return {a : Outcome Answer} (h : ∀ leased, a ≠ .ok (.jobs leased)) :
    Respects call (return a) := by
  rintro ⟨leased, ha⟩
  exact absurd ha (h leased)

theorem respects_hget {k : Option Job → Cmds (Outcome Answer)} (hnone : Respects call (k none))
    (hsome : ∀ job, job.id = id → Respects call (k (some job)) ∧
      (Terminal job.status → ¬Revives call job → ¬Writes (fun v => v.status ≠ job.status) id (k (some job)))) :
    Respects call (.call (.hget id) k) := by
  refine ⟨fun _ _ h => (by cases h), ?_⟩
  rintro (_ | job) hr
  · exact ⟨hnone, fun _ _ h => by cases h⟩
  · have hid : job.id = id := genuine_hget.mp hr job rfl
    refine ⟨(hsome job hid).1, ?_⟩
    rintro id' job' hfound hterm hrev
    cases hfound
    exact (hsome job hid).2 hterm hrev

theorem respects_hset {job : Job} {k : Unit → Cmds (Outcome Answer)} (hid : job.id = id)
    (hk : Respects call (k ())) : Respects call (.call (.hset id job) k) := by
  refine ⟨?_, fun _ _ => ⟨hk, fun _ _ h => by cases h⟩⟩
  rintro id' job' h
  cases h
  exact hid

/-- Every other command. -/
theorem respects_call {c : Command} {k : c.Reply → Cmds (Outcome Answer)} (hset : ∀ id job, c ≠ .hset id job)
    (hfound : ∀ r, c.found r = none) (hk : ∀ r, Respects call (k r)) : Respects call (.call c k) := by
  refine ⟨fun id job h => absurd h (hset id job), fun r _ => ⟨hk r, fun id job h => ?_⟩⟩
  rw [hfound r] at h
  cases h

/-- A program of a call that hands out no jobs returns none. -/
theorem Respects.not_returns {p : Cmds (Outcome Answer)} (h : Respects call p) (hcall : ¬call.Leases) :
    ¬Returns id p := by
  induction p with
  | done a =>
      rintro ⟨leased, ha, _⟩
      exact hcall (h ⟨leased, ha⟩)
  | call c k ih =>
      rintro ⟨_, r, hr, hret⟩
      exact ih r (h.2 r hr).1 hret

end Rules

section Calls

variable {call : Call} {id : Uuid}

theorem leaseEach_respects {now lockExpiresAt : DateTime} {queue workerId : String} {leaseSeconds batchSize : Int} :
    ∀ (n : Nat) (leased : List Job),
      Respects (.leaseJobsBatch now queue workerId leaseSeconds batchSize)
        (leaseEach queue workerId now lockExpiresAt n leased)
  | 0, _ => fun _ => trivial
  | n + 1, leased => by
      unfold leaseEach
      refine respects_call (fun _ _ h => by cases h) (fun _ => rfl) ?_
      rintro (_ | jobId)
      · exact fun _ => trivial
      refine respects_hget (leaseEach_respects n leased) (fun job hid => ?_)
      show Respects _ (if now < job.runAt then _ else _) ∧
        (_ → _ → ¬Writes _ _ (if now < job.runAt then _ else _))
      by_cases hdue : now < job.runAt
      · simp only [if_pos hdue]
        constructor
        · refine respects_call (fun _ _ h => by cases h) (fun _ => rfl) (fun _ => ?_)
          exact respects_call (fun _ _ h => by cases h) (fun _ => rfl) (fun _ => leaseEach_respects n leased)
        · intro _ _
          exact writes_call (fun h => h) (fun _ =>
            writes_call (fun h => h) (fun _ => leaseEach_writes n leased))
      simp only [if_neg hdue]
      by_cases hmissed : job.deadlineAt.any (fun deadline => decide (deadline < now)) = true
      · simp only [if_pos hmissed]
        constructor
        · refine respects_hset hid ?_
          exact respects_call (fun _ _ h => by cases h) (fun _ => rfl) (fun _ => leaseEach_respects n leased)
        · -- the only status this writes is the one that a job which is left alone has already
          intro _ hrev
          refine writes_hset (fun _ hstatus => hrev ⟨hdue, fun hdlq => hstatus hdlq.1.symm⟩) ?_
          exact writes_call (fun h => h) (fun _ => leaseEach_writes n leased)
      · simp only [if_neg hmissed]
        constructor
        · exact respects_hset hid (leaseEach_respects n _)
        · intro _ hrev
          exact absurd ⟨hdue, fun hdlq => hmissed hdlq.2⟩ hrev

/-- A lease returns what it has in its batch, and what it writes before it returns. -/
theorem leaseEach_returns {now lockExpiresAt : DateTime} {queue workerId : String} :
    ∀ (n : Nat) (leased : List Job), Returns id (leaseEach queue workerId now lockExpiresAt n leased) →
      ∃ job ∈ leased, job.id = id
  | 0, leased, h => by
      obtain ⟨_, heq, hmem⟩ := h
      cases heq
      exact hmem
  | n + 1, leased, h => by
      unfold leaseEach at h
      obtain ⟨_, r, _, h⟩ := h
      rcases r with _ | jobId
      · obtain ⟨_, heq, hmem⟩ := h
        cases heq
        exact hmem
      obtain ⟨_, r, hr, h⟩ := h
      rcases r with _ | job
      · exact leaseEach_returns n leased h
      have hid : job.id = jobId := genuine_hget.mp hr job rfl
      have h : Returns id (if now < job.runAt then _ else _) := h
      split at h
      · obtain ⟨_, _, _, _, _, _, h⟩ := h
        exact leaseEach_returns n leased h
      split at h
      · obtain ⟨_, _, _, _, _, _, h⟩ := h
        exact leaseEach_returns n leased h
      · obtain ⟨hputs, _, _, h⟩ := h
        obtain ⟨job', hmem, hjob'⟩ := leaseEach_returns n _ h
        rcases List.mem_append.mp hmem with hmem | hmem
        · exact ⟨job', hmem, hjob'⟩
        · -- the job pushed in this round is the one just written
          rw [List.mem_singleton.mp hmem] at hjob'
          exact absurd ⟨hid.symm.trans hjob', trivial⟩ hputs

theorem reapList_respects {now : DateTime} {order : KeyOrder} {procKey target : String}
    {f : Nat → Cmds (Outcome Answer)} (hf : ∀ n, Respects (.reapExpiredLocks order now) (f n))
    (hw : ∀ bad id n, ¬Writes bad id (f n)) :
    ∀ (jids : List Uuid) (reaped : Nat),
      Respects (.reapExpiredLocks order now) (reapList now procKey target jids reaped >>= f)
  | [], reaped => hf reaped
  | jid :: rest, reaped => by
      unfold reapList
      refine respects_hget (reapList_respects hf hw rest reaped) (fun job hid => ?_)
      show Respects _ ((if _ then _ else _) >>= f) ∧ (_ → _ → ¬Writes _ _ ((if _ then _ else _) >>= f))
      by_cases hexp : job.lockExpiresAt.any (fun exp => decide (exp ≤ now)) = true
      · simp only [if_pos hexp]
        constructor
        · refine respects_hset hid (respects_call (fun _ _ h => by cases h) (fun _ => rfl) (fun _ => ?_))
          refine respects_call (fun _ _ h => by cases h) (fun _ => rfl) (fun _ => ?_)
          exact reapList_respects hf hw rest (reaped + 1)
        · intro _ hrev
          exact absurd hexp hrev
      · simp only [if_neg hexp]
        exact ⟨reapList_respects hf hw rest reaped, fun _ _ => reapList_writes (hw _ _) rest reaped⟩

theorem reapKeys_respects {now : DateTime} {order : KeyOrder} :
    ∀ (keys : List String) (reaped : Nat), Respects (.reapExpiredLocks order now) (reapKeys now keys reaped)
  | [], _ => respects_return (fun _ h => by cases h)
  | procKey :: rest, reaped => by
      unfold reapKeys
      split
      · exact reapKeys_respects rest reaped
      · refine respects_call (fun _ _ h => by cases h) (fun _ => rfl) (fun jobIds => ?_)
        exact reapList_respects (reapKeys_respects rest) (fun _ _ => reapKeys_writes rest) jobIds reaped

/-- A lease holder goes on with a running job only, so a terminal one is safe from it. -/
theorem withLease_respects {jobId : Uuid} {workerId : String} {missing refused : Outcome Answer}
    {act : Job → Cmds (Outcome Answer)} (hmissing : ∀ leased, missing ≠ .ok (.jobs leased))
    (hrefused : ∀ leased, refused ≠ .ok (.jobs leased)) (hact : ∀ job, job.id = jobId → Respects call (act job)) :
    Respects call (withLease jobId workerId missing refused act) := by
  refine respects_hget (respects_return hmissing) (fun job hid => ?_)
  show Respects _ (if _ then _ else _) ∧ (_ → _ → ¬Writes _ _ (if _ then _ else _))
  by_cases hholds : holdsLease workerId job = true
  · simp only [if_pos hholds]
    refine ⟨hact job hid, fun hterm _ => ?_⟩
    rw [holdsLease_running hholds] at hterm
    exact absurd hterm (by decide)
  · simp only [if_neg hholds]
    exact ⟨respects_return hrefused, fun _ _ => writes_return⟩

theorem startAttemptsBatch_respects {workerId : String} :
    ∀ (jobs : List (Uuid × Uuid)) (results : List (Uuid × Uuid × Int)),
      Respects call (startAttemptsBatch workerId jobs results)
  | [], _ => respects_return (fun _ h => by cases h)
  | (jobId, attemptId) :: rest, results => by
      unfold startAttemptsBatch
      refine withLease_respects (fun _ h => by cases h) (fun _ h => by cases h) (fun job _ => ?_)
      exact respects_call (fun _ _ h => by cases h) (fun _ => rfl) (fun _ => startAttemptsBatch_respects rest _)

theorem cancelJob_respects {now : DateTime} {jobId : Uuid} {workerId : Option String} :
    Respects call (cancelJob now jobId workerId) := by
  refine respects_hget (respects_return (fun _ h => by cases h)) (fun job hid => ?_)
  show Respects _ (cancelFound now jobId workerId job) ∧ (_ → _ → ¬Writes _ _ (cancelFound now jobId workerId job))
  unfold cancelFound
  have hlast : Respects call (cancelRecord now jobId job) :=
    respects_hset hid (respects_return (fun _ h => by cases h))
  cases hcheck : checkCancel jobId job.status job.lockedBy workerId with
  | error e => exact ⟨respects_return (fun _ h => by cases h), fun _ _ => writes_return⟩
  | ok _ =>
      refine ⟨?_, fun hterm _ => absurd hterm (checkCancel_ok hcheck).not_terminal⟩
      show Respects call (if _ then _ else _)
      split
      · exact respects_call (fun _ _ h => by cases h) (fun _ => rfl) (fun _ => hlast)
      · exact hlast

theorem storeJob_respects {now : DateTime} {jobId : Uuid} {job : NewJob} : Respects call (storeJob now jobId job) := by
  refine respects_hset rfl (respects_call (fun _ _ h => by cases h) (fun _ => rfl) (fun _ => ?_))
  exact respects_return (fun _ h => by cases h)

theorem program_respects (call : Call) : Respects call call.program := by
  cases call with
  | enqueue jobId now job =>
      show Respects _ (enqueue jobId now job)
      unfold enqueue
      split
      · exact storeJob_respects
      refine respects_call (fun _ _ h => by cases h) (fun _ => rfl) ?_
      rintro (_ | _)
      · refine respects_call (fun _ _ h => by cases h) (fun _ => rfl) ?_
        rintro (_ | existing) <;> exact respects_return (fun _ h => by cases h)
      · exact storeJob_respects
  | leaseJobsBatch now queue workerId leaseSeconds batchSize =>
      show Respects _ (leaseJobsBatch now queue workerId leaseSeconds batchSize)
      unfold leaseJobsBatch
      split
      · exact respects_return (fun _ h => by cases h)
      · exact leaseEach_respects _ _
  | reapExpiredLocks order now =>
      exact respects_call (fun _ _ h => by cases h) (fun _ => rfl) (fun keys => reapKeys_respects _ _)
  | startAttemptsBatch workerId jobs => exact startAttemptsBatch_respects jobs []
  -- the acknowledgements read the record, check the lease and write it under its own id
  | markSucceeded nextId now jobId workerId =>
      refine withLease_respects (fun _ h => by cases h) (fun _ h => by cases h) (fun job hid => ?_)
      split
      · exact respects_return (fun _ h => by cases h)
      rename_i next hnext
      refine respects_hset hid (respects_call (fun _ _ h => by cases h) (fun _ => rfl) (fun _ => ?_))
      cases next with
      | none => exact respects_return (fun _ h => by cases h)
      | some next =>
          refine respects_hset (nextJob_spec hnext).1
            (respects_call (fun _ _ h => by cases h) (fun _ => rfl) (fun _ => ?_))
          exact respects_return (fun _ h => by cases h)
  | rescheduleForRetry now jobId workerId nextRunAt =>
      refine withLease_respects (fun _ h => by cases h) (fun _ h => by cases h) (fun job hid => ?_)
      refine respects_hset hid (respects_call (fun _ _ h => by cases h) (fun _ => rfl) (fun _ => ?_))
      refine respects_call (fun _ _ h => by cases h) (fun _ => rfl) (fun _ => ?_)
      exact respects_return (fun _ h => by cases h)
  | markDlq dlqAt now jobId workerId reasonCode =>
      refine withLease_respects (fun _ h => by cases h) (fun _ h => by cases h) (fun job hid => ?_)
      refine respects_hset hid (respects_call (fun _ _ h => by cases h) (fun _ => rfl) (fun _ => ?_))
      exact respects_return (fun _ h => by cases h)
  | extendLease now jobId workerId leaseSeconds =>
      refine withLease_respects (fun _ h => by cases h) (fun _ h => by cases h) (fun job hid => ?_)
      split
      · exact respects_return (fun _ h => by cases h)
      · exact respects_hset hid (respects_return (fun _ h => by cases h))
  | cancelJob now jobId workerId => exact cancelJob_respects

/-- At its start, a call has nothing to hand out. -/
theorem program_returns : ¬Returns id call.program := by
  cases call with
  | leaseJobsBatch now queue workerId leaseSeconds batchSize =>
      show ¬Returns id (leaseJobsBatch now queue workerId leaseSeconds batchSize)
      unfold leaseJobsBatch
      split
      · rintro ⟨_, h, _⟩
        cases h
      · intro h
        obtain ⟨job, hmem, _⟩ := leaseEach_returns _ _ h
        exact absurd hmem (List.not_mem_nil)
  | _ => exact (program_respects _).not_returns (fun h => h)

end Calls

/-! ## The invariant -/

/-- Records are stored under their ids, every client keeps to `Respects`, and none of them holds a job whose record is
    terminal. -/
structure TerminalInv (s : RedisPool) : Prop where
  keyed : ∀ id job, s.store.jobs id = some job → job.id = id
  respects : ∀ i call p, s.client i = some (call, p) → Respects call p
  free : ∀ i call p id job, s.client i = some (call, p) → s.store.jobs id = some job → Terminal job.status →
    ¬Holds id job.status p

section Runs

variable {s s' : RedisPool}

/-- What a server answers is genuine where records are stored under their ids. -/
theorem genuine_exec {c : Command} {σ : Store} (hkeyed : ∀ id job, σ.jobs id = some job → job.id = id) :
    Genuine c (c.exec σ).1 := by
  intro id job hfound
  exact hkeyed id job (Command.found_hget hfound).2

theorem TerminalInv.exec {i : Nat} (h : TerminalInv s) (hstep : s.next server Call.program (.exec i) = some s')
    (hcare : CarefulStep s (.exec i) s') : TerminalInv s' := by
  obtain ⟨call, c, k, hi, rfl⟩ := next_exec hstep
  have hgen : Genuine c (c.exec s.store).1 := genuine_exec h.keyed
  have hres := h.respects i call _ hi
  obtain ⟨hread, hwrite⟩ := hcare i call c k rfl hi
  constructor
  · intro id job hjob
    by_cases hset : ∃ job, c = .hset id job
    · obtain ⟨job', rfl⟩ := hset
      have hnew : some job' = some job := Command.exec_hset.symm.trans hjob
      cases hnew
      exact hres.1 id job rfl
    · have hold : s.store.jobs id = some job := by
        rw [← Command.exec_jobs (fun job' he => hset ⟨job', he⟩)]
        exact hjob
      exact h.keyed id job hold
  · intro j call' p hj
    rcases Pool.client_put hj with ⟨rfl, heq⟩ | ⟨hji, hj⟩
    · cases heq
      exact (hres.2 _ hgen).1
    · exact h.respects j call' p hj
  · intro j call' p id job hj hjob hterm
    by_cases hset : ∃ job, c = .hset id job
    · -- a terminal status is written under `id`: the condition on the step
      obtain ⟨job', rfl⟩ := hset
      have hnew : some job' = some job := Command.exec_hset.symm.trans hjob
      cases hnew
      exact hwrite id job rfl hterm j call' p hj
    have hold : s.store.jobs id = some job := by
      rw [← Command.exec_jobs (fun job' he => hset ⟨job', he⟩)]
      exact hjob
    rcases Pool.client_put hj with ⟨rfl, heq⟩ | ⟨hji, hj⟩
    · cases heq
      have hfree : ¬Holds id job.status (.call c k) := h.free j call _ id job hi hold hterm
      have hputs : ¬c.puts (fun _ => True) id := by
        intro hp
        cases c with
        | hset id' job' => exact hset ⟨job', by rw [hp.1]⟩
        | _ => exact hp
      rintro (hw | hret)
      · by_cases hreads : c.reads id
        · -- the record has just been read: the call leaves it alone unless it revives it
          cases c with
          | hget id' =>
              have hid : id' = id := hreads
              subst hid
              have hfound : (Command.hget id').found (s.store.jobs id') = some (id', job) := by rw [hold]; rfl
              exact (hres.2 _ hgen).2 id' job hfound hterm (hread id' job rfl hold hterm) hw
          | _ => exact hreads
        · exact hfree (Or.inl (Or.inr ⟨hreads, _, hw⟩))
      · exact hfree (Or.inr ⟨hputs, _, hgen, hret⟩)
    · exact h.free j call' p id job hj hold hterm

/-- A client that ends leaves the records as they are. -/
theorem TerminalInv.leave (h : TerminalInv s) (i : Nat) : TerminalInv (s.put i none s.store) := by
  have hstill (j : Nat) (running : Call × Cmds (Outcome Answer))
      (hj : (s.put i none s.store).client j = some running) : s.client j = some running := by
    rcases Pool.client_put hj with ⟨_, hnone⟩ | ⟨_, hj⟩
    · cases hnone
    · exact hj
  refine ⟨h.keyed, fun j call p hj => h.respects j call p (hstill j _ hj), ?_⟩
  intro j call p id job hj hjob hterm
  exact h.free j call p id job (hstill j _ hj) hjob hterm

theorem TerminalInv.step {move : Move Nat Call} (h : TerminalInv s)
    (hstep : (redisSystem.restrict CarefulStep).step s move s') : TerminalInv s' := by
  obtain ⟨⟨hnext, hnew⟩, hcare⟩ := hstep
  cases move with
  | exec i => exact h.exec hnext hcare
  | start i call =>
      obtain ⟨_, rfl⟩ := Pool.next_start hnext
      refine ⟨h.keyed, ?_, ?_⟩
      · intro j call' p hj
        rcases Pool.client_put hj with ⟨rfl, heq⟩ | ⟨hji, hj⟩
        · cases heq
          exact program_respects call
        · exact h.respects j call' p hj
      · intro j call' p id job hj hjob hterm
        rcases Pool.client_put hj with ⟨rfl, heq⟩ | ⟨hji, hj⟩
        · cases heq
          rintro (hw | hret)
          · -- the id that the call has made has no record yet
            obtain ⟨hnone, _, _⟩ := hnew j call id rfl (program_writes hw)
            have hjob : s.store.jobs id = some job := hjob
            rw [hnone] at hjob
            cases hjob
          · exact program_returns hret
        · exact h.free j call' p id job hj hjob hterm
  | finish i =>
      obtain ⟨_, _, _, rfl⟩ := Pool.next_finish hnext
      exact h.leave i
  | crash i =>
      obtain ⟨_, rfl⟩ := Pool.next_crash hnext
      exact h.leave i

theorem reachable_terminalInv (hs : (redisSystem.restrict CarefulStep).Reachable s) : TerminalInv s := by
  refine System.Reachable.invariant ?_ (fun s move s' _ h hstep => h.step hstep) hs
  rintro s ⟨hempty, hidle⟩
  constructor
  · intro id job hjob
    rw [hempty] at hjob
    cases hjob
  · intro i call p hi
    rw [hidle i] at hi
    cases hi
  · intro i call p id job hi
    rw [hidle i] at hi
    cases hi

/-- A step from where the invariant holds keeps to the law. -/
theorem TerminalInv.law {move : Move Nat Call} (h : TerminalInv s)
    (hstep : s.next server Call.program move = some s') : TerminalLaw s move s' := by
  constructor
  · intro id job hjob hterm
    cases move with
    | start i call =>
        obtain ⟨_, rfl⟩ := Pool.next_start hstep
        exact ⟨job, hjob, rfl⟩
    | finish i =>
        obtain ⟨_, _, _, rfl⟩ := Pool.next_finish hstep
        exact ⟨job, hjob, rfl⟩
    | crash i =>
        obtain ⟨_, rfl⟩ := Pool.next_crash hstep
        exact ⟨job, hjob, rfl⟩
    | exec i =>
        obtain ⟨call, c, k, hi, rfl⟩ := next_exec hstep
        by_cases hset : ∃ job, c = .hset id job
        · obtain ⟨job', rfl⟩ := hset
          refine ⟨job', Command.exec_hset, ?_⟩
          by_contra hne
          exact h.free i call _ id job hi hjob hterm (Or.inl (Or.inl ⟨rfl, hne⟩))
        · refine ⟨job, ?_, rfl⟩
          show (c.exec s.store).2.jobs id = some job
          rw [Command.exec_jobs (fun job' he => hset ⟨job', he⟩)]
          exact hjob
  · rintro i call leased rfl hi job hmem stored hstored hterm
    exact h.free i call _ job.id stored hi hstored hterm (Or.inr ⟨leased, rfl, job, hmem, rfl⟩)

end Runs

/-- **When a terminal status is final.** In every run that keeps to `CarefulStep`, every step keeps to the law: to the
    end of the run a job that is `succeeded`, `dlq` or `canceled` keeps its status, and no client is then about to
    return it from a lease. -/
theorem terminal_law {s : RedisPool} (hs : (redisSystem.restrict CarefulStep).Reachable s) :
    (∀ move s', (redisSystem.restrict CarefulStep).step s move s' → TerminalLaw s move s') ∧
    ∀ moves s', (redisSystem.restrict CarefulStep).Run s moves s' → ∀ id job,
      s.store.jobs id = some job → Terminal job.status →
        (∃ job', s'.store.jobs id = some job' ∧ job'.status = job.status) ∧
        ∀ i call leased, s'.client i = some (call, .done (.ok (.jobs leased))) → ∀ job' ∈ leased, job'.id ≠ id := by
  refine ⟨fun move s' hstep => (reachable_terminalInv hs).law hstep.1.1, ?_⟩
  intro moves s' hrun id job hjob hterm
  have hkeep : ∃ job', s'.store.jobs id = some job' ∧ job'.status = job.status := by
    refine System.Run.keeps (I := fun s => ∃ job', s.store.jobs id = some job' ∧ job'.status = job.status) ?_ hrun hs
      ⟨job, hjob, rfl⟩
    rintro s₁ move s₂ hreach ⟨job₁, hjob₁, hst₁⟩ hstep
    have hlaw := (reachable_terminalInv hreach).law hstep.1.1
    obtain ⟨job₂, hjob₂, hst₂⟩ := hlaw.final id job₁ hjob₁ (hst₁ ▸ hterm)
    exact ⟨job₂, hjob₂, hst₂.trans hst₁⟩
  refine ⟨hkeep, ?_⟩
  rintro i call leased hi job' hmem rfl
  obtain ⟨stored, hstored, hst⟩ := hkeep
  have hfree := (reachable_terminalInv (hs.run hrun)).free i call _ job'.id stored hi hstored (hst ▸ hterm)
  exact hfree (Or.inr ⟨leased, rfl, job', hmem, rfl⟩)

/-! ### Enqueue, cancel, lease -/

/-- One client enqueues job 1, cancels it, and leases from its queue, each call after the other has returned. -/
def cancelThenLease : List (Move Nat Call) :=
  [.start 0 (.enqueue 1 0 email), .exec 0, .exec 0, .finish 0,
    .start 0 (.cancelJob 5 1 none), .exec 0, .exec 0, .finish 0,
    .start 0 (.leaseJobsBatch 10 "emails" "w1" 30 1), .exec 0, .exec 0, .exec 0]

/-- That run after `n` of its moves. -/
def emailPool (n : Nat) : RedisPool := (idlePool.run server Call.program (cancelThenLease.take n)).getD idlePool

/-- The job that was cancelled is running again, and the lease is about to return it. -/
theorem cancelled_job_leased :
    redisSystem.Reachable (emailPool 11) ∧ redisSystem.step (emailPool 11) (.exec 0) (emailPool 12) ∧
    ((emailPool 11).store.jobs 1).map (·.status) = some "canceled" ∧
    ((emailPool 12).store.jobs 1).map (·.status) = some "running" ∧
    (∃ call job, (emailPool 12).client 0 = some (call, .done (.ok (.jobs [job]))) ∧ job.id = 1) ∧
    ¬TerminalLaw (emailPool 11) (.exec 0) (emailPool 12) := by
  have hidle : redisSystem.Reachable idlePool := .start ⟨rfl, fun _ => rfl⟩
  have hstart : redisSystem.Reachable (emailPool 1) :=
    hidle.next (i := .start 0 (.enqueue 1 0 email)) ⟨rfl, email_newIds _⟩
  have hreach : redisSystem.Reachable (emailPool 11) :=
    reachable_moves ((cancelThenLease.take 11).drop 1) hstart rfl rfl
  have hbefore : ((emailPool 11).store.jobs 1).map (·.status) = some "canceled" := by decide
  have hafter : ((emailPool 12).store.jobs 1).map (·.status) = some "running" := by decide
  refine ⟨hreach, ⟨rfl, fun _ _ _ h => by cases h⟩, hbefore, hafter, ⟨_, _, rfl, rfl⟩, ?_⟩
  intro hlaw
  obtain ⟨job, hjob, hst⟩ := Option.map_eq_some_iff.mp hbefore
  obtain ⟨job', hjob', hst'⟩ := hlaw.final 1 job hjob (by rw [hst]; decide)
  rw [hjob', Option.map_some, hst', hst] at hafter
  exact absurd hafter (by decide)

/-! ### Enqueue and cancel -/

theorem careful_of_quiet {s s' : RedisPool} {move : Move Nat Call} (h : ∀ i, move ≠ .exec i) :
    CarefulStep s move s' := fun i _ _ _ he => absurd he (h i)

/-- Up to the end of the cancellation the run is careful. -/
theorem emailPool_careful : (redisSystem.restrict CarefulStep).Reachable (emailPool 7) := by
  have hidle : (redisSystem.restrict CarefulStep).Reachable idlePool := .start ⟨rfl, fun _ => rfl⟩
  have hstart : (redisSystem.restrict CarefulStep).Reachable (emailPool 1) :=
    hidle.next (i := .start 0 (.enqueue 1 0 email))
      ⟨⟨rfl, email_newIds _⟩, careful_of_quiet (fun _ h => by cases h)⟩
  have hstored : (redisSystem.restrict CarefulStep).Reachable (emailPool 2) := by
    refine hstart.next (i := .exec 0) ⟨⟨rfl, fun _ _ _ h => by cases h⟩, ?_⟩
    intro i call c k hmove hc
    cases hmove
    cases hc
    refine ⟨fun _ _ h => (by cases h), ?_⟩
    intro id job h hterm
    cases h
    exact absurd hterm (by decide)
  have hpushed : (redisSystem.restrict CarefulStep).Reachable (emailPool 3) := by
    refine hstored.next (i := .exec 0) ⟨⟨rfl, fun _ _ _ h => by cases h⟩, ?_⟩
    intro i call c k hmove hc
    cases hmove
    cases hc
    exact ⟨fun _ _ h => (by cases h), fun _ _ h => by cases h⟩
  have hreturned : (redisSystem.restrict CarefulStep).Reachable (emailPool 4) :=
    hpushed.next (i := .finish 0) ⟨⟨rfl, fun _ _ _ h => by cases h⟩, careful_of_quiet (fun _ h => by cases h)⟩
  have hcancel : (redisSystem.restrict CarefulStep).Reachable (emailPool 5) := by
    refine hreturned.next (i := .start 0 (.cancelJob 5 1 none))
      ⟨⟨rfl, ?_⟩, careful_of_quiet (fun _ h => by cases h)⟩
    intro i call id hmove hid
    cases hmove
    cases hid
  have hread : (redisSystem.restrict CarefulStep).Reachable (emailPool 6) := by
    refine hcancel.next (i := .exec 0) ⟨⟨rfl, fun _ _ _ h => by cases h⟩, ?_⟩
    intro i call c k hmove hc
    cases hmove
    cases hc
    exact ⟨fun _ _ _ _ _ h => h, fun _ _ h => by cases h⟩
  refine hread.next (i := .exec 0) ⟨⟨rfl, fun _ _ _ h => by cases h⟩, ?_⟩
  intro i call c k hmove hc
  cases hmove
  cases hc
  refine ⟨fun _ _ h => (by cases h), ?_⟩
  rintro id job h _ (_ | j) call' p hj
  · cases hj
    rintro (hw | ⟨leased, ha, _⟩)
    · exact hw
    · cases ha
  · cases hj

/-- The cancelled job stays cancelled when the call returns. -/
theorem cancelled_job_stays :
    TerminalLaw (emailPool 7) (.finish 0) (emailPool 8) ∧
    ∃ job, (emailPool 8).store.jobs 1 = some job ∧ job.status = "canceled" := by
  have hstep : (redisSystem.restrict CarefulStep).step (emailPool 7) (.finish 0) (emailPool 8) :=
    ⟨⟨rfl, fun _ _ _ h => by cases h⟩, careful_of_quiet (fun _ h => by cases h)⟩
  obtain ⟨job, hjob, hst⟩ : ∃ job, (emailPool 7).store.jobs 1 = some job ∧ job.status = "canceled" := ⟨_, rfl, rfl⟩
  have hlaw := terminal_law emailPool_careful
  obtain ⟨⟨job', hjob', hst'⟩, _⟩ :=
    hlaw.2 [.finish 0] (emailPool 8) (.cons hstep (.nil _)) 1 job hjob (by rw [hst]; decide)
  exact ⟨hlaw.1 _ _ hstep, job', hjob', hst'.trans hst⟩

end Azums.Redis
