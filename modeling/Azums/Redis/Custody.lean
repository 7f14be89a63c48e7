import Azums.Redis.Footprint
import Azums.Redis.Places

/-!
# `Redis.Custody` — when a job cannot get lost

Every operation that moves a job takes several commands for it, and between two of them the job may be in no list: after
`LMOVE` its record has no lock yet, after the `HSET` of `enqueue` it is in no list at all. Then it depends on the client
that is moving it. `Carries` says which clients these are, and at which of their commands.

`custody_law` says when a job that is queued or running is always recoverable: in its queue's list, or where a reaper
finds it once its lock has expired, or carried by a client that delivers it. The steps that must not happen are the
death of a client that carries a job, and the two ways in which a client that acts on what it read earlier takes the
last place from a job: by writing `running` over a job that was finished and taken off the lists, and by taking an id off a
list after the job was revived. `enqueue_lost` is a run of the first kind.

The invariant says of every job that is queued or running that it has a place or a carrier. What the programs contribute
is `Safe`: each command is one that keeps the lists and the records together, whatever the others did meanwhile.
-/

namespace Azums.Redis

/-! ## Carriers -/

/-- The next commands of `p` push the id to a list, at most after taking it off others. -/
def Pushes (id : Uuid) : Cmds (Outcome Answer) → Prop
  | .call (.rpush _ id') _ | .call (.lpush _ id') _ => id' = id
  | .call (.lrem _ id') k => id' = id ∧ Pushes id (k ())
  | _ => False

/-- The next command of `p` reads or writes the record of the id. -/
def Takes (id : Uuid) : Cmds (Outcome Answer) → Prop
  | .call (.hget id') _ | .call (.hset id' _) _ => id' = id
  | _ => False

/-- The client is moving the job: it is about to push the id; or it is a lease that has the id in its processing list
    and has not written the record yet; or it is a `cancel_job` that is about to cancel the job it found running. -/
inductive Carries (id : Uuid) (s : Store) : Call → Cmds (Outcome Answer) → Prop where
  | pushes {call : Call} {p : Cmds (Outcome Answer)} : Pushes id p → Carries id s call p
  | takes {now : DateTime} {queue workerId : String} {leaseSeconds batchSize : Int} {p : Cmds (Outcome Answer)} :
      Takes id p → (processingKey queue workerId, id) ∈ s.entries →
        Carries id s (.leaseJobsBatch now queue workerId leaseSeconds batchSize) p
  | cancels {now : DateTime} {jobId : Uuid} {workerId : Option String} {job v : Job}
      {k : Unit → Cmds (Outcome Answer)} : s.jobs id = some job → job.status = "running" →
        Carries id s (.cancelJob now jobId workerId) (.call (.hset id v) k)

/-- Some client carries the job. -/
def Carried (s : RedisPool) (id : Uuid) : Prop :=
  ∃ i call p, s.client i = some (call, p) ∧ Carries id s.store call p

/-- If the job is queued or running, a list has it. -/
def Settled (s : Store) (id : Uuid) : Prop :=
  ∀ job, s.jobs id = some job → Live job.status → Listed s id job

/-- If the job is queued or running, a list has it or a client carries it. -/
def Placed (s : RedisPool) (id : Uuid) : Prop :=
  ∀ job, s.store.jobs id = some job → Live job.status → Listed s.store id job ∨ Carried s id

/-- The client on its own brings the job to a place, or to its end. -/
def Delivers (id : Uuid) : Cmds (Outcome Answer) → Store → Prop
  | .done _, s => Settled s id
  | .call c k, s => Settled s id ∨ Delivers id (k (c.exec s).1) (c.exec s).2

/-! ## The condition and the law -/

/-- The calls whose `LREM` gives up the job: nothing of theirs that follows brings it to a place or to its end. -/
def Drops (call : Call) (job : Job) : Prop :=
  match call with
  | .markSucceeded _ _ _ _ | .markDlq _ _ _ _ _ | .leaseJobsBatch _ _ _ _ _ => True
  | .cancelJob _ _ _ => job.status ≠ "running"
  | _ => False

/-- The steps at which no job gets lost: queue names have no colon; a client that dies carries no job that depends on
    it; `running` is written over a job that is queued or running, or in a processing list; and an `LREM` that gives up a
    job that is queued or running leaves it another place or carrier. -/
structure CustodyStep (s : RedisPool) (move : Move Nat Call) (s' : RedisPool) : Prop where
  plain : ∀ i jobId now job, move = .start i (.enqueue jobId now job) → Plain job.queue
  crash : ∀ i call p id job, move = .crash i → s.client i = some (call, p) → Carries id s.store call p →
    s.store.jobs id = some job → Live job.status → Listed s.store id job
  grant : ∀ i call id v k, move = .exec i → s.client i = some (call, .call (.hset id v) k) → v.status = "running" →
    (∃ job, s.store.jobs id = some job ∧ Live job.status) ∨
      ∃ key, isProcessing key = true ∧ (key, id) ∈ s.store.entries
  drop : ∀ i call key id k job, move = .exec i → s.client i = some (call, .call (.lrem key id) k) →
    s.store.jobs id = some job → Live job.status → Drops call job →
      Listed s'.store id job ∨ ∃ j call' p, j ≠ i ∧ s'.client j = some (call', p) ∧ Carries id s'.store call' p

/-- A reaper that finds the id in a processing list, once the lock has expired, brings it back to its queue. -/
structure Reapable (s : Store) (id : Uuid) (job : Job) : Prop where
  locked : ∃ exp, job.lockExpiresAt = some exp
  inProcessing : ∃ key, isProcessing key = true ∧ (key, id) ∈ s.entries
  returned : ∀ order now, job.lockExpiresAt.any (fun exp => decide (exp ≤ now)) = true →
    (queueKey job.queue, id) ∈ ((reapExpiredLocks order now).alone Command.exec s).2.entries

/-- The job is in its queue's list, or a later reaper brings it back there, or a client is moving it and will deliver
    it. -/
def Recoverable (s : RedisPool) (id : Uuid) (job : Job) : Prop :=
  (queueKey job.queue, id) ∈ s.store.entries ∨ Reapable s.store id job ∨
    ∃ i call p, s.client i = some (call, p) ∧ Carries id s.store call p ∧ Delivers id p s.store

/-! ## What every command keeps to -/

/-- The record of the job names this queue. -/
def HasQueue (s : Store) (id : Uuid) (queue : String) : Prop := ∃ job, s.jobs id = some job ∧ job.queue = queue

/-- What a client knows for good: a record stays, and it keeps its queue. -/
def Later (s s' : Store) : Prop := ∀ id queue, HasQueue s id queue → HasQueue s' id queue

theorem Later.refl (s : Store) : Later s s := fun _ _ h => h

theorem Later.trans {s s' s'' : Store} (h : Later s s') (h' : Later s' s'') : Later s s'' :=
  fun id queue hq => h' id queue (h id queue hq)

/-- The id that the call makes has no record until the call writes it. -/
def Unborn (call : Call) (p : Cmds (Outcome Answer)) (s : Store) : Prop :=
  ∀ id, call.newId = some id → Writes (fun _ => True) id p → s.jobs id = none

/-- The calls that write `running`. -/
def Grants : Call → Prop
  | .leaseJobsBatch _ _ _ _ _ | .extendLease _ _ _ _ => True
  | _ => False

/-- What the call may do with its next command. -/
def Obliged (call : Call) (s : Store) : (c : Command) → (c.Reply → Cmds (Outcome Answer)) → Prop
  | .hset id v, k =>
      (HasQueue s id v.queue ∨ (call.newId = some id ∧ s.jobs id = none ∧ Plain v.queue)) ∧
      (¬Live v.status ∨ (Grants call ∧ v.status = "running" ∧ v.lockExpiresAt.isSome = true) ∨ Pushes id (k ())) ∧
      (call.newId = some id → ¬Writes (fun _ => True) id (k ()))
  | .rpush key id, _ | .lpush key id, _ => ∃ queue, key = queueKey queue ∧ HasQueue s id queue
  | .lrem _ id, k =>
      Pushes id (k ()) ∨ (∀ job, s.jobs id = some job → Drops call job ∨
        ∃ now jobId workerId v k', call = .cancelJob now jobId workerId ∧ job.status = "running" ∧
          k () = .call (.hset id v) k')
  | .lmove source destination, k =>
      ∃ now queue workerId leaseSeconds batchSize,
        call = .leaseJobsBatch now queue workerId leaseSeconds batchSize ∧ source = queueKey queue ∧
        destination = processingKey queue workerId ∧ ∀ id, Takes id (k (some id))
  | .hget id, k =>
      call.newId ≠ some id ∧
      ∀ now queue workerId leaseSeconds batchSize,
        call = .leaseJobsBatch now queue workerId leaseSeconds batchSize →
          ∀ job, s.jobs id = some job → Pushes id (k (some job)) ∨ Takes id (k (some job))
  | _, _ => True

/-- Every command that the rest of a call can send keeps to its obligation, whatever the others do in between. -/
def Safe (call : Call) : Cmds (Outcome Answer) → Store → Prop
  | .done _, _ => True
  | .call c k, s =>
      ∀ s₁, Later s s₁ → Consistent s₁ → Unborn call (.call c k) s₁ →
        Obliged call s₁ c k ∧ Safe call (k (c.exec s₁).1) (c.exec s₁).2

section Rules

variable {call : Call} {id : Uuid} {s s' : Store}

theorem Safe.later {p : Cmds (Outcome Answer)} (h : Safe call p s) (hl : Later s s') : Safe call p s' := by
  cases p with
  | done a => trivial
  | call c k => exact fun s₁ hl₁ => h s₁ (hl.trans hl₁)

/-- `LMOVE` moves the first member, or nothing. -/
theorem exec_lmove (source destination : String) :
    (Command.lmove source destination).exec s = (none, s) ∨
    ∃ id, (source, id) ∈ s.entries ∧ (Command.lmove source destination).exec s =
      (some id, { s with entries := s.entries.erase (source, id) ++ [(destination, id)] }) := by
  cases hhead : (s.list source).head? with
  | none =>
      left
      simp only [Command.exec, hhead]
  | some id =>
      right
      refine ⟨id, mem_list.mp (List.mem_of_mem_head? hhead), ?_⟩
      simp only [Command.exec, hhead]

/-- `HSETNX azums:idempotency` touches neither records nor lists. -/
theorem exec_hsetnx (key : String) (id : Uuid) :
    ((Command.hsetnxIdempotency key id).exec s).2.jobs = s.jobs ∧
      ((Command.hsetnxIdempotency key id).exec s).2.entries = s.entries := by
  cases hkey : s.idempotency key <;> simp only [Command.exec, hkey, and_self]

/-- No record loses its queue. -/
theorem Obliged.later {c : Command} {k : c.Reply → Cmds (Outcome Answer)} (h : Obliged call s c k) :
    Later s (c.exec s).2 := by
  intro id queue hq
  by_cases hset : ∃ v, c = .hset id v
  · obtain ⟨v, rfl⟩ := hset
    refine ⟨v, Command.exec_hset, ?_⟩
    obtain ⟨job, hjob, rfl⟩ := hq
    rcases h.1 with ⟨job', hjob', hqueue⟩ | ⟨_, hnone, _⟩
    · rw [hjob] at hjob'
      cases hjob'
      exact hqueue.symm
    · rw [hjob] at hnone
      cases hnone
  · obtain ⟨job, hjob, hqueue⟩ := hq
    exact ⟨job, (Command.exec_jobs (fun v he => hset ⟨v, he⟩)).trans hjob, hqueue⟩

/-- The lists go on agreeing with the records. -/
theorem Obliged.consistent {c : Command} {k : c.Reply → Cmds (Outcome Answer)} (h : Obliged call s c k)
    (hs : Consistent s) : Consistent (c.exec s).2 := by
  cases c with
  | hset id v =>
      constructor
      · intro id' job hjob
        by_cases hid : id' = id
        · subst hid
          have hv : some v = some job := Command.exec_hset.symm.trans hjob
          cases hv
          -- a record is written in its old queue, or is new and its queue name has no colon
          rcases h.1 with ⟨job', hjob', hqueue⟩ | ⟨_, _, hplain⟩
          · rw [← hqueue]
            exact hs.plain id' job' hjob'
          · exact hplain
        · exact hs.plain id' job ((Function.update_of_ne hid ..).symm.trans hjob)
      · intro key id' hmem
        obtain ⟨job, hjob, hkey⟩ := hs.placed key id' hmem
        by_cases hid : id' = id
        · subst hid
          refine ⟨v, Command.exec_hset, ?_⟩
          rcases h.1 with ⟨job', hjob', hqueue⟩ | ⟨_, hnone, _⟩
          · rw [hjob] at hjob'
            cases hjob'
            rw [← hqueue]
            exact hkey
          · rw [hjob] at hnone
            cases hnone
        · exact ⟨job, (Function.update_of_ne hid ..).trans hjob, hkey⟩
  | rpush key id =>
      obtain ⟨queue, rfl, job, hjob, rfl⟩ := h
      refine ⟨hs.plain, fun key' id' hmem => ?_⟩
      rcases List.mem_append.mp hmem with hmem | hmem
      · exact hs.placed key' id' hmem
      · cases List.mem_singleton.mp hmem
        exact ⟨job, hjob, Or.inl rfl⟩
  | lpush key id =>
      obtain ⟨queue, rfl, job, hjob, rfl⟩ := h
      refine ⟨hs.plain, fun key' id' hmem => ?_⟩
      rcases List.mem_cons.mp hmem with heq | hmem
      · cases heq
        exact ⟨job, hjob, Or.inl rfl⟩
      · exact hs.placed key' id' hmem
  | lrem key id => exact ⟨hs.plain, fun key' id' hmem => hs.placed key' id' (List.mem_of_mem_erase hmem)⟩
  | lmove source destination =>
      obtain ⟨now, queue, workerId, leaseSeconds, batchSize, _, rfl, rfl, _⟩ := h
      rcases exec_lmove (s := s) (queueKey queue) (processingKey queue workerId) with heq | ⟨id, hmem, heq⟩
      · rw [heq]
        exact hs
      · rw [heq]
        refine ⟨hs.plain, fun key' id' hmem' => ?_⟩
        rcases List.mem_append.mp hmem' with hmem' | hmem'
        · exact hs.placed key' id' (List.mem_of_mem_erase hmem')
        · cases List.mem_singleton.mp hmem'
          obtain ⟨job, hjob, rfl⟩ := hs.queue_of_mem hmem
          exact ⟨job, hjob, Or.inr ⟨workerId, rfl⟩⟩
  | hsetnxIdempotency key id =>
      obtain ⟨hjobs, hentries⟩ := exec_hsetnx (s := s) key id
      refine ⟨fun id' job hjob => hs.plain id' job (hjobs ▸ hjob), fun key' id' hmem => ?_⟩
      rw [hjobs]
      exact hs.placed key' id' (hentries ▸ hmem)
  | hgetIdempotency _ | hget _ | lrange _ | keysProcessing | incr _ => exact ⟨hs.plain, hs.placed⟩

/-- The id that a call has made stays without a record until the call writes it. -/
theorem Obliged.unborn {c : Command} {k : c.Reply → Cmds (Outcome Answer)} (h : Obliged call s c k)
    (hs : Unborn call (.call c k) s) : Unborn call (k (c.exec s).1) (c.exec s).2 := by
  intro id hnew hw
  by_cases hset : ∃ v, c = .hset id v
  · obtain ⟨v, rfl⟩ := hset
    exact absurd hw (h.2.2 hnew)
  · rw [Command.exec_jobs (fun v he => hset ⟨v, he⟩)]
    refine hs id hnew (Or.inr ⟨fun hreads => ?_, _, hw⟩)
    cases c with
    | hget id' =>
        have hid : id' = id := hreads
        exact h.1 (hid ▸ hnew)
    | _ => exact hreads

/-! ### One rule for each kind of command -/

theorem safe_hset {v : Job} {k : Unit → Cmds (Outcome Answer)} (hqueue : HasQueue s id v.queue)
    (hstatus : ¬Live v.status ∨ (Grants call ∧ v.status = "running" ∧ v.lockExpiresAt.isSome = true) ∨ Pushes id (k ()))
    (hk : Safe call (k ()) s) : Safe call (.call (.hset id v) k) s := by
  intro s₁ hl _ hunborn
  have hold : HasQueue s₁ id v.queue := hl id _ hqueue
  have hob : Obliged call s₁ (.hset id v) k := by
    refine ⟨Or.inl hold, hstatus, fun hnew => ?_⟩
    obtain ⟨job, hjob, _⟩ := hold
    rw [hunborn id hnew (Or.inl ⟨rfl, trivial⟩)] at hjob
    cases hjob
  exact ⟨hob, hk.later (hl.trans hob.later)⟩

/-- A new record, which is pushed next. -/
theorem safe_create {v : Job} {k : Unit → Cmds (Outcome Answer)} (hnew : call.newId = some id) (hplain : Plain v.queue)
    (hpush : Pushes id (k ())) (honce : ¬Writes (fun _ => True) id (k ()))
    (hk : ∀ s₂, HasQueue s₂ id v.queue → Safe call (k ()) s₂) : Safe call (.call (.hset id v) k) s := by
  intro s₁ _ _ hunborn
  refine ⟨⟨Or.inr ⟨hnew, hunborn id hnew (Or.inl ⟨rfl, trivial⟩), hplain⟩, Or.inr (Or.inr hpush), fun _ => honce⟩, ?_⟩
  exact hk _ ⟨v, Command.exec_hset, rfl⟩

theorem safe_rpush {queue : String} {k : Unit → Cmds (Outcome Answer)} (hqueue : HasQueue s id queue)
    (hk : Safe call (k ()) s) : Safe call (.call (.rpush (queueKey queue) id) k) s := by
  intro s₁ hl _ _
  have hob : Obliged call s₁ (.rpush (queueKey queue) id) k := ⟨queue, rfl, hl id _ hqueue⟩
  exact ⟨hob, hk.later (hl.trans hob.later)⟩

theorem safe_lpush {queue : String} {k : Unit → Cmds (Outcome Answer)} (hqueue : HasQueue s id queue)
    (hk : Safe call (k ()) s) : Safe call (.call (.lpush (queueKey queue) id) k) s := by
  intro s₁ hl _ _
  have hob : Obliged call s₁ (.lpush (queueKey queue) id) k := ⟨queue, rfl, hl id _ hqueue⟩
  exact ⟨hob, hk.later (hl.trans hob.later)⟩

/-- An `LREM` that is followed by a push. -/
theorem safe_lrem_push {key : String} {k : Unit → Cmds (Outcome Answer)} (hpush : Pushes id (k ()))
    (hk : Safe call (k ()) s) : Safe call (.call (.lrem key id) k) s := by
  intro s₁ hl _ _
  have hob : Obliged call s₁ (.lrem key id) k := Or.inl hpush
  exact ⟨hob, hk.later (hl.trans hob.later)⟩

/-- An `LREM` that gives up the job. -/
theorem safe_lrem_drop {key : String} {k : Unit → Cmds (Outcome Answer)} (hdrop : ∀ job, Drops call job)
    (hk : Safe call (k ()) s) : Safe call (.call (.lrem key id) k) s := by
  intro s₁ hl _ _
  have hob : Obliged call s₁ (.lrem key id) k := Or.inr (fun job _ => Or.inl (hdrop job))
  exact ⟨hob, hk.later (hl.trans hob.later)⟩

/-- The `HGET` of a call that is no lease. -/
theorem safe_hget {k : Option Job → Cmds (Outcome Answer)} (hnew : call.newId ≠ some id)
    (hlease : ∀ now queue workerId leaseSeconds batchSize,
      call ≠ .leaseJobsBatch now queue workerId leaseSeconds batchSize)
    (hk : ∀ s₁, Later s s₁ → Consistent s₁ → Safe call (k (s₁.jobs id)) s₁) :
    Safe call (.call (.hget id) k) s := by
  intro s₁ hl hcons _
  exact ⟨⟨hnew, fun _ _ _ _ _ he => absurd he (hlease _ _ _ _ _)⟩, hk s₁ hl hcons⟩

theorem safe_withLease {jobId : Uuid} {workerId : String} {missing refused : Outcome Answer}
    {act : Job → Cmds (Outcome Answer)} (hnew : call.newId ≠ some jobId)
    (hlease : ∀ now queue workerId leaseSeconds batchSize,
      call ≠ .leaseJobsBatch now queue workerId leaseSeconds batchSize)
    (hact : ∀ s₁ job, holdsLease workerId job = true → Plain job.queue → HasQueue s₁ jobId job.queue →
      Safe call (act job) s₁) :
    Safe call (withLease jobId workerId missing refused act) s := by
  refine safe_hget hnew hlease (fun s₁ _ hcons => ?_)
  cases hjob : s₁.jobs jobId with
  | none => trivial
  | some job =>
      show Safe call (if _ then _ else _) s₁
      split
      · rename_i hholds
        exact hact s₁ job hholds (hcons.plain jobId job hjob) ⟨job, hjob, rfl⟩
      · trivial

end Rules

/-! ## The programs -/

section Programs

variable {call : Call} {id : Uuid} {s : Store}

theorem leaseEach_safe {now lockExpiresAt : DateTime} {queue workerId : String} {leaseSeconds batchSize : Int} :
    ∀ (n : Nat) (leased : List Job) (s : Store),
      Safe (.leaseJobsBatch now queue workerId leaseSeconds batchSize)
        (leaseEach queue workerId now lockExpiresAt n leased) s
  | 0, _, _ => trivial
  | n + 1, leased, s => by
      unfold leaseEach
      intro s₁ _ hcons _
      refine ⟨⟨now, queue, workerId, leaseSeconds, batchSize, rfl, rfl, rfl, fun _ => rfl⟩, ?_⟩
      rcases exec_lmove (s := s₁) (queueKey queue) (processingKey queue workerId) with heq | ⟨jobId, hmem, heq⟩
      · rw [heq]
        trivial
      rw [heq]
      -- the id came from the list of the queue, so that is the queue of its record
      obtain ⟨job₁, hjob₁, hq₁⟩ := hcons.queue_of_mem hmem
      intro s₂ hl _ _
      obtain ⟨job, hjob, hqueue⟩ := hl jobId queue ⟨job₁, hjob₁, hq₁⟩
      have hnext : Safe (.leaseJobsBatch now queue workerId leaseSeconds batchSize)
            (leaseEach queue workerId now lockExpiresAt n leased) s₂ := leaseEach_safe n leased s₂
      refine ⟨⟨fun h => (by cases h), ?_⟩, ?_⟩
      · intro _ _ _ _ _ _ job' _
        show Pushes jobId (if now < job'.runAt then _ else _) ∨ Takes jobId (if now < job'.runAt then _ else _)
        split
        · exact Or.inl rfl
        split
        · exact Or.inr rfl
        · exact Or.inr rfl
      have hreply : ((Command.hget jobId).exec s₂).1 = some job := hjob
      rw [hreply]
      show Safe _ (if now < job.runAt then _ else _) s₂
      split
      · refine safe_lpush ⟨job, hjob, hqueue⟩ ?_
        exact safe_lrem_drop (fun _ => trivial) hnext
      split
      · refine safe_hset ⟨job, hjob, rfl⟩ (Or.inl (by decide : ¬Live "dlq")) ?_
        exact safe_lrem_drop (fun _ => trivial) hnext
      · exact safe_hset ⟨job, hjob, rfl⟩ (Or.inr (Or.inl ⟨trivial, rfl, rfl⟩)) (leaseEach_safe n _ s₂)

/-- The inner loop of the reaper knows of its members that they belong to the queue it pushes to. -/
theorem reapList_safe {order : KeyOrder} {now : DateTime} {procKey target : String} {f : Nat → Cmds (Outcome Answer)}
    (hf : ∀ n s, Safe (.reapExpiredLocks order now) (f n) s) :
    ∀ (jids : List Uuid) (reaped : Nat) (s : Store),
      (∀ jid ∈ jids, ∃ queue, target = queueKey queue ∧ HasQueue s jid queue) →
        Safe (.reapExpiredLocks order now) (reapList now procKey target jids reaped >>= f) s
  | [], reaped, s, _ => hf reaped s
  | jid :: rest, reaped, s, hjids => by
      unfold reapList
      refine safe_hget (fun h => by cases h) (fun _ _ _ _ _ h => by cases h) (fun s₁ hl _ => ?_)
      have hrest : ∀ jid ∈ rest, ∃ queue, target = queueKey queue ∧ HasQueue s₁ jid queue := by
        intro jid' hmem
        obtain ⟨queue, htarget, hq⟩ := hjids jid' (List.mem_cons_of_mem _ hmem)
        exact ⟨queue, htarget, hl jid' queue hq⟩
      obtain ⟨queue, rfl, hq⟩ := hjids jid List.mem_cons_self
      obtain ⟨job, hjob, hqueue⟩ := hl jid queue hq
      rw [hjob]
      show Safe _ ((if _ then _ else _) >>= f) s₁
      split
      · refine safe_hset ⟨job, hjob, rfl⟩ (Or.inr (Or.inr ⟨rfl, rfl⟩)) ?_
        refine safe_lrem_push rfl (safe_rpush ⟨job, hjob, hqueue⟩ ?_)
        exact reapList_safe hf rest (reaped + 1) s₁ hrest
      · exact reapList_safe hf rest reaped s₁ hrest

theorem reapKeys_safe {order : KeyOrder} {now : DateTime} :
    ∀ (keys : List String) (reaped : Nat) (s : Store), (∀ key ∈ keys, isProcessing key = true) →
      Safe (.reapExpiredLocks order now) (reapKeys now keys reaped) s
  | [], _, _, _ => trivial
  | procKey :: rest, reaped, s, hkeys => by
      have hrest : ∀ key ∈ rest, isProcessing key = true := fun key hmem => hkeys key (List.mem_cons_of_mem _ hmem)
      unfold reapKeys
      split
      · exact reapKeys_safe rest reaped s hrest
      · rename_i target htarget
        intro s₁ _ hcons _
        refine ⟨trivial, reapList_safe (fun n s => reapKeys_safe rest n s hrest) _ reaped s₁ ?_⟩
        intro jid hmem
        have hentry : (procKey, jid) ∈ s₁.entries := mem_list.mp hmem
        obtain ⟨job, hjob, _⟩ := hcons.placed procKey jid hentry
        have hhome := hcons.target_of_mem (hkeys procKey List.mem_cons_self) hentry hjob
        rw [htarget] at hhome
        exact ⟨job.queue, Option.some.inj hhome, job, hjob, rfl⟩

theorem startAttemptsBatch_safe {workerId : String} {all : List (Uuid × Uuid)} :
    ∀ (jobs : List (Uuid × Uuid)) (results : List (Uuid × Uuid × Int)) (s : Store),
      Safe (.startAttemptsBatch workerId all) (startAttemptsBatch workerId jobs results) s
  | [], _, _ => trivial
  | (jobId, attemptId) :: rest, results, s => by
      unfold startAttemptsBatch
      refine safe_withLease (fun h => by cases h) (fun _ _ _ _ _ h => by cases h) (fun s₁ _ _ _ _ => ?_)
      exact fun s₂ _ _ _ => ⟨trivial, startAttemptsBatch_safe rest _ _⟩

theorem storeJob_safe {now : DateTime} {jobId : Uuid} {job : NewJob} (hplain : Plain job.queue) :
    Safe (.enqueue jobId now job) (storeJob now jobId job) s := by
  refine safe_create rfl hplain rfl (writes_call (fun h => h) (fun _ => writes_return)) (fun s₂ hq => ?_)
  exact safe_rpush hq trivial

theorem enqueue_safe {now : DateTime} {jobId : Uuid} {job : NewJob} (hplain : Plain job.queue) :
    Safe (.enqueue jobId now job) (enqueue jobId now job) s := by
  unfold enqueue
  split
  · exact storeJob_safe hplain
  · intro s₁ _ _ _
    refine ⟨trivial, ?_⟩
    show Safe _ (if _ then _ else _) _
    split
    · exact storeJob_safe hplain
    · intro s₂ _ _ _
      refine ⟨trivial, ?_⟩
      cases hkey : ((Command.hgetIdempotency _).exec s₂).1 <;> trivial

theorem markSucceeded_safe {nextId : Uuid} {now : DateTime} {jobId : Uuid} {workerId : String}
    (hne : nextId ≠ jobId) :
    Safe (.markSucceeded nextId now jobId workerId) (markSucceeded nextId now jobId workerId) s := by
  refine safe_withLease (fun h => hne (Option.some.inj h)) (fun _ _ _ _ _ h => by cases h)
    (fun s₁ job _ hplain hq => ?_)
  split
  · trivial
  rename_i next hnext
  refine safe_hset hq (Or.inl (by decide : ¬Live "succeeded")) (safe_lrem_drop (fun _ => trivial) ?_)
  cases next with
  | none => trivial
  | some next =>
      have hqueue : next.queue = job.queue := (nextJob_spec hnext).2.1
      refine safe_create rfl (hqueue ▸ hplain) rfl (writes_call (fun h => h) (fun _ => writes_return)) ?_
      exact fun s₂ hq => safe_rpush hq trivial

theorem cancelJob_safe {now : DateTime} {jobId : Uuid} {workerId : Option String} :
    Safe (.cancelJob now jobId workerId) (cancelJob now jobId workerId) s := by
  refine safe_hget (fun h => by cases h) (fun _ _ _ _ _ h => by cases h) (fun s₁ _ _ => ?_)
  cases hjob : s₁.jobs jobId with
  | none => trivial
  | some job =>
      have hlast : Safe (.cancelJob now jobId workerId) (cancelRecord now jobId job) s₁ :=
        safe_hset ⟨job, hjob, rfl⟩ (Or.inl (by decide : ¬Live "canceled")) trivial
      show Safe _ (cancelFound now jobId workerId job) s₁
      unfold cancelFound
      split
      · trivial
      split
      · intro s₂ hl _ _
        have hob : Obliged (.cancelJob now jobId workerId) s₂
            (.lrem (processingKey job.queue (workerId.getD "")) jobId) (fun _ => cancelRecord now jobId job) := by
          refine Or.inr (fun job' _ => ?_)
          by_cases hrunning : job'.status = "running"
          · exact Or.inr ⟨now, jobId, workerId, _, _, rfl, hrunning, rfl⟩
          · exact Or.inl hrunning
        exact ⟨hob, hlast.later (hl.trans hob.later)⟩
      · exact hlast

/-- **Every call is safe from its start**, over queue names without a colon and new ids that are new. -/
theorem program_safe (call : Call) (s : Store)
    (hplain : ∀ jobId now job, call = .enqueue jobId now job → Plain job.queue)
    (hnew : ∀ id, call.newId = some id → call.jobId ≠ some id) : Safe call call.program s := by
  cases call with
  | enqueue jobId now job => exact enqueue_safe (hplain jobId now job rfl)
  | leaseJobsBatch now queue workerId leaseSeconds batchSize =>
      show Safe _ (leaseJobsBatch now queue workerId leaseSeconds batchSize) s
      unfold leaseJobsBatch
      split
      · trivial
      · exact leaseEach_safe _ _ s
  | reapExpiredLocks order now =>
      intro s₁ _ _ _
      refine ⟨trivial, reapKeys_safe _ 0 s₁ ?_⟩
      intro key hmem
      have hmem' : key ∈ ((s₁.entries.map Prod.fst).filter isProcessing).dedup := (order.perm _).mem_iff.mp hmem
      exact (List.mem_filter.mp (List.mem_dedup.mp hmem')).2
  | startAttemptsBatch workerId jobs => exact startAttemptsBatch_safe jobs [] s
  | markSucceeded nextId now jobId workerId =>
      exact markSucceeded_safe (fun he => hnew nextId rfl (by rw [he]; rfl))
  | rescheduleForRetry now jobId workerId nextRunAt =>
      refine safe_withLease (fun h => by cases h) (fun _ _ _ _ _ h => by cases h) (fun s₁ job _ _ hq => ?_)
      refine safe_hset hq (Or.inr (Or.inr ⟨rfl, rfl⟩)) ?_
      exact safe_lrem_push rfl (safe_rpush hq trivial)
  | markDlq dlqAt now jobId workerId reasonCode =>
      refine safe_withLease (fun h => by cases h) (fun _ _ _ _ _ h => by cases h) (fun s₁ job _ _ hq => ?_)
      exact safe_hset hq (Or.inl (by decide : ¬Live "dlq")) (safe_lrem_drop (fun _ => trivial) trivial)
  | extendLease now jobId workerId leaseSeconds =>
      refine safe_withLease (fun h => by cases h) (fun _ _ _ _ _ h => by cases h) (fun s₁ job hholds _ hq => ?_)
      split
      · trivial
      · refine safe_hset hq (Or.inr (Or.inl ⟨trivial, holdsLease_running hholds, rfl⟩)) trivial
  | cancelJob now jobId workerId => exact cancelJob_safe

end Programs
/-! ## Delivery -/

section Delivery

variable {call : Call} {id : Uuid} {s : Store}

theorem Settled.delivers {p : Cmds (Outcome Answer)} (h : Settled s id) : Delivers id p s := by
  cases p with
  | done a => exact h
  | call c k => exact Or.inl h

/-- A push settles the job, for it goes to the list of the job's queue. -/
theorem settled_of_mem {queue : String} (hqueue : HasQueue s id queue) (hmem : (queueKey queue, id) ∈ s.entries) :
    Settled s id := by
  intro job hjob _
  obtain ⟨job', hjob', rfl⟩ := hqueue
  rw [hjob] at hjob'
  cases hjob'
  exact Or.inl hmem

theorem pushes_delivers (p : Cmds (Outcome Answer)) : ∀ s : Store, Pushes id p → Safe call p s → Consistent s →
    Unborn call p s → Delivers id p s := by
  induction p with
  | done a => exact fun _ hpush => hpush.elim
  | call c k ih =>
      intro s hpush hsafe hcons hunborn
      obtain ⟨hob, hk⟩ := hsafe s (Later.refl s) hcons hunborn
      right
      cases c with
      | rpush key id' =>
          obtain rfl : id' = id := hpush
          obtain ⟨queue, rfl, hqueue⟩ := hob
          exact Settled.delivers (settled_of_mem hqueue (List.mem_append_right _ (List.mem_singleton_self _)))
      | lpush key id' =>
          obtain rfl : id' = id := hpush
          obtain ⟨queue, rfl, hqueue⟩ := hob
          exact Settled.delivers (settled_of_mem hqueue List.mem_cons_self)
      | lrem key id' => exact ih () _ hpush.2 hk (hob.consistent hcons) (hob.unborn hunborn)
      | _ => exact hpush.elim

/-- A lease that has the id in its processing list goes on until the record says so too, or until it has put the id
    back. -/
theorem takes_delivers {now : DateTime} {queue workerId : String} {leaseSeconds batchSize : Int}
    (hcall : call = .leaseJobsBatch now queue workerId leaseSeconds batchSize) (p : Cmds (Outcome Answer)) :
    ∀ s : Store, Takes id p → (processingKey queue workerId, id) ∈ s.entries → Safe call p s → Consistent s →
      Unborn call p s → Delivers id p s := by
  induction p with
  | done a => exact fun _ htakes => htakes.elim
  | call c k ih =>
      intro s htakes hmem hsafe hcons hunborn
      obtain ⟨hob, hk⟩ := hsafe s (Later.refl s) hcons hunborn
      cases c with
      | hget id' =>
          obtain rfl : id' = id := htakes
          cases hjob : s.jobs id' with
          | none => exact Or.inl (fun job hjob' => by rw [hjob] at hjob'; cases hjob')
          | some job =>
              right
              have hreply : ((Command.hget id').exec s).1 = some job := hjob
              have hcons' := hob.consistent hcons
              have hunborn' := hob.unborn hunborn
              rw [hreply] at hk hunborn' ⊢
              rcases hob.2 now queue workerId leaseSeconds batchSize hcall job hjob with hpush | htakes'
              · exact pushes_delivers _ _ hpush hk hcons' hunborn'
              · exact ih (some job) _ htakes' hmem hk hcons' hunborn'
      | hset id' v =>
          obtain rfl : id' = id := htakes
          right
          rcases hob.2.1 with hstatus | ⟨_, _, hlock⟩ | hpush
          · refine Settled.delivers (fun job hjob hlive => ?_)
            cases Command.exec_hset.symm.trans hjob
            exact absurd hlive hstatus
          · refine Settled.delivers (fun job hjob _ => ?_)
            cases Command.exec_hset.symm.trans hjob
            exact Or.inr ⟨hlock, _, isProcessing_processingKey queue workerId, hmem⟩
          · exact pushes_delivers _ _ hpush hk (hob.consistent hcons) (hob.unborn hunborn)
      | _ => exact htakes.elim

/-- **Who carries a job delivers it.** -/
theorem Carries.delivers {p : Cmds (Outcome Answer)} (h : Carries id s call p) (hsafe : Safe call p s)
    (hcons : Consistent s) (hunborn : Unborn call p s) : Delivers id p s := by
  cases h with
  | pushes hpush => exact pushes_delivers p s hpush hsafe hcons hunborn
  | takes htakes hmem => exact takes_delivers rfl p s htakes hmem hsafe hcons hunborn
  | cancels hjob hrunning =>
      rename_i k
      obtain ⟨hob, hk⟩ := hsafe s (Later.refl s) hcons hunborn
      right
      rcases hob.2.1 with hstatus | ⟨hgrants, _, _⟩ | hpush
      · refine Settled.delivers (fun job hjob hlive => ?_)
        cases Command.exec_hset.symm.trans hjob
        exact absurd hlive hstatus
      · exact hgrants.elim
      · exact pushes_delivers _ _ hpush hk (hob.consistent hcons) (hob.unborn hunborn)

end Delivery

/-! ## The invariant -/

/-- The lists agree with the records, every client is safe, new ids are new, and every job that is queued or running has
    a place or a carrier. -/
structure CustodyInv (s : RedisPool) : Prop where
  consistent : Consistent s.store
  safe : ∀ i call p, s.client i = some (call, p) → Safe call p s.store
  unborn : ∀ i call p, s.client i = some (call, p) → Unborn call p s.store
  unique : ∀ i j call call' p p' id, i ≠ j → s.client i = some (call, p) → s.client j = some (call', p') →
    call.newId = some id → call'.newId ≠ some id
  placed : ∀ id, Placed s id

section Runs

variable {s s' : RedisPool} {i : Nat} {id : Uuid} {call : Call} {σ : Store}

theorem Listed.mono {σ' : Store} {job : Job} (h : Listed σ id job)
    (hentries : ∀ key, (key, id) ∈ σ.entries → (key, id) ∈ σ'.entries) : Listed σ' id job :=
  h.imp (hentries _) (fun ⟨hlock, key, hproc, hmem⟩ => ⟨hlock, key, hproc, hentries key hmem⟩)

theorem Carries.mono {σ' : Store} {p : Cmds (Outcome Answer)} (h : Carries id σ call p)
    (hentries : ∀ key, (key, id) ∈ σ.entries → (key, id) ∈ σ'.entries)
    (hrunning : ∀ job, σ.jobs id = some job → job.status = "running" →
      ∃ job', σ'.jobs id = some job' ∧ job'.status = "running") : Carries id σ' call p := by
  cases h with
  | pushes hpush => exact .pushes hpush
  | takes htakes hmem => exact .takes htakes (hentries _ hmem)
  | cancels hjob hrun =>
      obtain ⟨job', hjob', hrun'⟩ := hrunning _ hjob hrun
      exact .cancels hjob' hrun'

/-- A step of a client that did not carry the job, and that leaves its record and its entries alone. -/
theorem Placed.frame {running : Option (Call × Cmds (Outcome Answer))} (h : Placed s id)
    (hactor : ∀ call p, s.client i = some (call, p) → ¬Carries id s.store call p)
    (hjobs : σ.jobs id = s.store.jobs id)
    (hentries : ∀ key, (key, id) ∈ s.store.entries → (key, id) ∈ σ.entries) : Placed (s.put i running σ) id := by
  intro job hjob hlive
  have hold : s.store.jobs id = some job := hjobs.symm.trans hjob
  rcases h job hold hlive with hlisted | ⟨j, call, p, hj, hcarries⟩
  · exact Or.inl (hlisted.mono hentries)
  · have hji : j ≠ i := fun he => hactor call p (he ▸ hj) hcarries
    refine Or.inr ⟨j, call, p, (Pool.put_of_ne hji).trans hj, hcarries.mono hentries ?_⟩
    exact fun job' hjob' hrun => ⟨job', hjobs.trans hjob', hrun⟩

/-- The record of the job is written: by a client that will push it, or by one that writes `running`, or it is at its
    end. -/
theorem placed_hset {v : Job} {k : Unit → Cmds (Outcome Answer)} (h : Placed s id)
    (hi : s.client i = some (call, .call (.hset id v) k)) (hob : Obliged call s.store (.hset id v) k)
    (hgrant : v.status = "running" → (∃ job, s.store.jobs id = some job ∧ Live job.status) ∨
      ∃ key, isProcessing key = true ∧ (key, id) ∈ s.store.entries) :
    Placed (s.put i (some (call, k ())) ((Command.hset id v).exec s.store).2) id := by
  intro job hjob hlive
  cases Command.exec_hset.symm.trans hjob
  rcases hob.2.1 with hstatus | ⟨hgrants, hrun, hlock⟩ | hpush
  · exact absurd hlive hstatus
  · rcases hgrant hrun with ⟨job₀, hjob₀, hlive₀⟩ | ⟨key, hproc, hmem⟩
    · rcases h job₀ hjob₀ hlive₀ with (hqueue | ⟨_, hplace⟩) | ⟨j, call', p, hj, hcarries⟩
      · -- the job keeps its queue, so it is still in the list of its queue
        rcases hob.1 with ⟨job₁, hjob₁, hsame⟩ | ⟨_, hnone, _⟩
        · rw [hjob₀] at hjob₁
          cases hjob₁
          exact Or.inl (Or.inl (hsame ▸ hqueue))
        · rw [hjob₀] at hnone
          cases hnone
      · exact Or.inl (Or.inr ⟨hlock, hplace⟩)
      · by_cases hji : j = i
        · subst hji
          rw [hi] at hj
          cases hj
          cases hcarries with
          | pushes hpush => exact hpush.elim
          | takes _ hmem => exact Or.inl (Or.inr ⟨hlock, _, isProcessing_processingKey _ _, hmem⟩)
          | cancels _ _ => exact hgrants.elim
        · refine Or.inr ⟨j, call', p, (Pool.put_of_ne hji).trans hj, hcarries.mono (fun _ hm => hm) ?_⟩
          exact fun _ _ _ => ⟨v, Command.exec_hset, hrun⟩
    · exact Or.inl (Or.inr ⟨hlock, key, hproc, hmem⟩)
  · exact Or.inr ⟨i, call, k (), Pool.put_self, .pushes hpush⟩

/-- The id is taken off a list: by a client that will push it, by one that will cancel the job, or by one that gives it
    up. -/
theorem placed_lrem {key : String} {k : Unit → Cmds (Outcome Answer)} (hob : Obliged call s.store (.lrem key id) k)
    (hdrop : ∀ job, s.store.jobs id = some job → Live job.status → Drops call job →
      Listed ((Command.lrem key id).exec s.store).2 id job ∨
        Carried (s.put i (some (call, k ())) ((Command.lrem key id).exec s.store).2) id) :
    Placed (s.put i (some (call, k ())) ((Command.lrem key id).exec s.store).2) id := by
  intro job hjob hlive
  have hold : s.store.jobs id = some job := hjob
  rcases hob with hpush | hrest
  · exact Or.inr ⟨i, call, k (), Pool.put_self, .pushes hpush⟩
  · rcases hrest job hold with hdrops | ⟨now, jobId, workerId, v, k', rfl, hrun, hk⟩
    · exact hdrop job hold hlive hdrops
    · exact Or.inr ⟨i, _, k (), Pool.put_self, hk ▸ .cancels hjob hrun⟩

/-- The record of the job is read: a lease that carried it goes on carrying it. -/
theorem placed_hget {k : Option Job → Cmds (Outcome Answer)} (h : Placed s id)
    (hi : s.client i = some (call, .call (.hget id) k)) (hob : Obliged call s.store (.hget id) k) :
    Placed (s.put i (some (call, k (s.store.jobs id))) s.store) id := by
  intro job hjob hlive
  have hold : s.store.jobs id = some job := hjob
  rcases h job hold hlive with hlisted | ⟨j, call', p, hj, hcarries⟩
  · exact Or.inl hlisted
  · by_cases hji : j = i
    · subst hji
      rw [hi] at hj
      cases hj
      cases hcarries with
      | pushes hpush => exact hpush.elim
      | takes _ hmem =>
          refine Or.inr ⟨j, _, _, Pool.put_self, ?_⟩
          rw [hold]
          rcases hob.2 _ _ _ _ _ rfl job hold with hpush | htakes
          · exact .pushes hpush
          · exact .takes htakes hmem
    · exact Or.inr ⟨j, call', p, (Pool.put_of_ne hji).trans hj, hcarries⟩

/-- The command is about the record or a list entry of the job. -/
def Command.About (id : Uuid) : Command → Prop
  | .hset id' _ | .hget id' | .rpush _ id' | .lpush _ id' | .lrem _ id' => id' = id
  | _ => False

/-- A client that carries a job has a command about it next. -/
theorem Carries.about {σ : Store} {c : Command} {k : c.Reply → Cmds (Outcome Answer)}
    (h : Carries id σ call (.call c k)) : c.About id := by
  cases h with
  | pushes hpush =>
      cases c with
      | rpush key id' => exact hpush
      | lpush key id' => exact hpush
      | lrem key id' => exact hpush.1
      | _ => exact hpush.elim
  | takes htakes _ =>
      cases c with
      | hget id' => exact htakes
      | hset id' v => exact htakes
      | _ => exact htakes.elim
  | cancels _ _ => rfl

/-- **A command keeps every job placed.** The client that executes it either is not about the job, or still carries it
    afterwards, or has just put it into a list. -/
theorem placed_exec {c : Command} {k : c.Reply → Cmds (Outcome Answer)} (h : ∀ id, Placed s id)
    (hi : s.client i = some (call, .call c k)) (hob : Obliged call s.store c k)
    (hcond : CustodyStep s (.exec i) (s.put i (some (call, k (c.exec s.store).1)) (c.exec s.store).2)) (id : Uuid) :
    Placed (s.put i (some (call, k (c.exec s.store).1)) (c.exec s.store).2) id := by
  -- a client whose next command is not about `id` does not carry it
  have hother (hnot : ¬c.About id) : ∀ call' p, s.client i = some (call', p) → ¬Carries id s.store call' p := by
    intro call' p hp hcarries
    rw [hi] at hp
    cases hp
    exact hnot hcarries.about
  cases c with
  | hset id' v =>
      by_cases hid : id' = id
      · subst hid
        exact placed_hset (h id') hi hob (hcond.grant i call id' v k rfl hi)
      · exact (h id).frame (hother hid) (Function.update_of_ne (Ne.symm hid) ..) (fun _ hmem => hmem)
  | rpush key id' =>
      by_cases hid : id' = id
      · subst hid
        obtain ⟨queue, rfl, hqueue⟩ := hob
        have hsettled : Settled ((Command.rpush (queueKey queue) id').exec s.store).2 id' :=
          settled_of_mem hqueue (List.mem_append_right _ (List.mem_singleton_self _))
        exact fun job hjob hlive => Or.inl (hsettled job hjob hlive)
      · exact (h id).frame (hother hid) rfl (fun _ hmem => List.mem_append_left _ hmem)
  | lpush key id' =>
      by_cases hid : id' = id
      · subst hid
        obtain ⟨queue, rfl, hqueue⟩ := hob
        have hsettled : Settled ((Command.lpush (queueKey queue) id').exec s.store).2 id' :=
          settled_of_mem hqueue List.mem_cons_self
        exact fun job hjob hlive => Or.inl (hsettled job hjob hlive)
      · exact (h id).frame (hother hid) rfl (fun _ hmem => List.mem_cons_of_mem _ hmem)
  | lrem key id' =>
      by_cases hid : id' = id
      · subst hid
        refine placed_lrem hob (fun job hjob hlive hdrops => ?_)
        rcases hcond.drop i call key id' k job rfl hi hjob hlive hdrops with hlisted | ⟨j, call', p, _, hj, hcarries⟩
        · exact Or.inl hlisted
        · exact Or.inr ⟨j, call', p, hj, hcarries⟩
      · refine (h id).frame (hother hid) rfl (fun key' hmem => ?_)
        exact (List.mem_erase_of_ne (fun he => hid (congrArg Prod.snd he).symm)).mpr hmem
  | lmove source destination =>
      obtain ⟨now, queue, workerId, leaseSeconds, batchSize, rfl, rfl, rfl, htakes⟩ := hob
      rcases exec_lmove (s := s.store) (queueKey queue) (processingKey queue workerId) with heq | ⟨id', _, heq⟩
      · rw [heq]
        exact (h id).frame (hother not_false) rfl (fun _ hmem => hmem)
      · rw [heq]
        by_cases hid : id' = id
        · -- the id that was moved: the lease carries it from here
          subst hid
          intro job _ _
          refine Or.inr ⟨i, _, k (some id'), Pool.put_self, .takes (htakes id') ?_⟩
          exact List.mem_append_right _ (List.mem_singleton_self _)
        · refine (h id).frame (hother not_false) rfl (fun key' hmem => List.mem_append_left _ ?_)
          exact (List.mem_erase_of_ne (fun he => hid (congrArg Prod.snd he).symm)).mpr hmem
  | hget id' =>
      by_cases hid : id' = id
      · subst hid
        exact placed_hget (h id') hi hob
      · exact (h id).frame (hother hid) rfl (fun _ hmem => hmem)
  | hsetnxIdempotency key id' =>
      obtain ⟨hjobs, hentries⟩ := exec_hsetnx (s := s.store) key id'
      exact (h id).frame (hother not_false) (by rw [hjobs]) (fun _ hmem => hentries ▸ hmem)
  | hgetIdempotency _ | lrange _ | keysProcessing | incr _ =>
      exact (h id).frame (hother not_false) rfl (fun _ hmem => hmem)

/-- No other client can write the id that a call has made. -/
theorem Obliged.unborn_other {c : Command} {k : c.Reply → Cmds (Outcome Answer)} {call' : Call}
    {p : Cmds (Outcome Answer)} (hob : Obliged call s.store c k) (h : Unborn call' p s.store)
    (hne : ∀ id, call.newId = some id → call'.newId ≠ some id) : Unborn call' p (c.exec s.store).2 := by
  intro id hnew hw
  have hnone : s.store.jobs id = none := h id hnew hw
  by_cases hset : ∃ v, c = .hset id v
  · obtain ⟨v, rfl⟩ := hset
    rcases hob.1 with ⟨job, hjob, _⟩ | ⟨hnew', _, _⟩
    · rw [hnone] at hjob
      cases hjob
    · exact absurd hnew (hne id hnew')
  · rw [Command.exec_jobs (fun v he => hset ⟨v, he⟩)]
    exact hnone

theorem CustodyInv.exec (h : CustodyInv s) (hstep : s.next server Call.program (.exec i) = some s')
    (hcond : CustodyStep s (.exec i) s') : CustodyInv s' := by
  obtain ⟨call, c, k, hi, rfl⟩ := next_exec hstep
  obtain ⟨hob, hk⟩ := h.safe i call _ hi s.store (Later.refl _) h.consistent (h.unborn i call _ hi)
  refine ⟨hob.consistent h.consistent, ?_, ?_, ?_, placed_exec h.placed hi hob hcond⟩
  · intro j call' p hj
    rcases Pool.client_put hj with ⟨rfl, heq⟩ | ⟨hji, hj⟩
    · cases heq
      exact hk
    · exact (h.safe j call' p hj).later hob.later
  · intro j call' p hj
    rcases Pool.client_put hj with ⟨rfl, heq⟩ | ⟨hji, hj⟩
    · cases heq
      exact hob.unborn (h.unborn j _ _ hi)
    · exact hob.unborn_other (h.unborn j call' p hj) (fun id hnew => h.unique i j _ _ _ _ id (Ne.symm hji) hi hj hnew)
  · -- a client's call does not change while it runs
    have hcall (j : Nat) (call' : Call) (p : Cmds (Outcome Answer))
        (hj : (s.put i (some (call, k (c.exec s.store).1)) (c.exec s.store).2).client j = some (call', p)) :
        ∃ p', s.client j = some (call', p') := by
      rcases Pool.client_put hj with ⟨rfl, heq⟩ | ⟨hji, hj⟩
      · cases heq
        exact ⟨_, hi⟩
      · exact ⟨p, hj⟩
    intro j j' call₁ call₂ p₁ p₂ id hne hj hj'
    obtain ⟨_, hold⟩ := hcall j call₁ p₁ hj
    obtain ⟨_, hold'⟩ := hcall j' call₂ p₂ hj'
    exact h.unique j j' _ _ _ _ id hne hold hold'

/-- A client ends, and no job was depending on it. -/
theorem CustodyInv.leave (h : CustodyInv s)
    (hfree : ∀ call p id job, s.client i = some (call, p) → Carries id s.store call p → s.store.jobs id = some job →
      Live job.status → Listed s.store id job) : CustodyInv (s.put i none s.store) := by
  have hstill (j : Nat) (running : Call × Cmds (Outcome Answer))
      (hj : (s.put i none s.store).client j = some running) : s.client j = some running := by
    rcases Pool.client_put hj with ⟨_, hnone⟩ | ⟨_, hj⟩
    · cases hnone
    · exact hj
  refine ⟨h.consistent, fun j call p hj => h.safe j call p (hstill j _ hj),
    fun j call p hj => h.unborn j call p (hstill j _ hj), ?_, ?_⟩
  · intro j j' call call' p p' id hne hj hj'
    exact h.unique j j' _ _ _ _ id hne (hstill j _ hj) (hstill j' _ hj')
  · intro id job hjob hlive
    rcases h.placed id job hjob hlive with hlisted | ⟨j, call, p, hj, hcarries⟩
    · exact Or.inl hlisted
    · by_cases hji : j = i
      · subst hji
        exact Or.inl (hfree call p id job hj hcarries hjob hlive)
      · exact Or.inr ⟨j, call, p, (Pool.put_of_ne hji).trans hj, hcarries⟩

theorem CustodyInv.start (h : CustodyInv s) (hstep : s.next server Call.program (.start i call) = some s')
    (hnew : NewIds s (.start i call) s') (hcond : CustodyStep s (.start i call) s') : CustodyInv s' := by
  obtain ⟨hi, rfl⟩ := Pool.next_start hstep
  refine ⟨h.consistent, ?_, ?_, ?_, ?_⟩
  · intro j call' p hj
    rcases Pool.client_put hj with ⟨rfl, heq⟩ | ⟨hji, hj⟩
    · cases heq
      refine program_safe call s.store ?_ (fun id hid => (hnew j call id rfl hid).2.1)
      rintro jobId now job rfl
      exact hcond.plain j jobId now job rfl
    · exact h.safe j call' p hj
  · intro j call' p hj
    rcases Pool.client_put hj with ⟨rfl, heq⟩ | ⟨hji, hj⟩
    · cases heq
      exact fun id hid _ => (hnew j call id rfl hid).1
    · exact h.unborn j call' p hj
  · intro j j' call₁ call₂ p₁ p₂ id hne hj hj' hid hid'
    rcases Pool.client_put hj with ⟨rfl, heq⟩ | ⟨_, hold⟩
    · -- no other call has the id that the new call draws
      cases heq
      rcases Pool.client_put hj' with ⟨rfl, _⟩ | ⟨_, hold'⟩
      · exact absurd rfl hne
      · exact (hnew j call id rfl hid).2.2 j' call₂ p₂ hold' hid'
    · rcases Pool.client_put hj' with ⟨rfl, heq⟩ | ⟨_, hold'⟩
      · cases heq
        exact (hnew j' call id rfl hid').2.2 j call₁ p₁ hold hid
      · exact h.unique j j' _ _ _ _ id hne hold hold' hid hid'
  · intro id
    refine (h.placed id).frame (fun call' p hp => ?_) rfl (fun _ hmem => hmem)
    rw [hi] at hp
    cases hp

theorem CustodyInv.step {move : Move Nat Call} (h : CustodyInv s)
    (hstep : (redisSystem.restrict CustodyStep).step s move s') : CustodyInv s' := by
  obtain ⟨⟨hnext, hnew⟩, hcond⟩ := hstep
  cases move with
  | start i call => exact h.start hnext hnew hcond
  | exec i => exact h.exec hnext hcond
  | finish i =>
      obtain ⟨call, a, hi, rfl⟩ := Pool.next_finish hnext
      refine h.leave (fun call' p id job hp hcarries _ _ => ?_)
      rw [hi] at hp
      cases hp
      cases hcarries with
      | pushes hpush => exact hpush.elim
      | takes htakes _ => exact htakes.elim
  | crash i =>
      obtain ⟨_, rfl⟩ := Pool.next_crash hnext
      exact h.leave (fun call p id job hp => hcond.crash i call p id job rfl hp)

theorem reachable_custodyInv (hs : (redisSystem.restrict CustodyStep).Reachable s) : CustodyInv s := by
  refine System.Reachable.invariant ?_ (fun s move s' _ h hstep => h.step hstep) hs
  rintro s ⟨hempty, hidle⟩
  have hnobody {i : Nat} {running : Call × Cmds (Outcome Answer)} : s.client i ≠ some running := by
    rw [hidle i]
    exact fun h => by cases h
  have hnone (id : Uuid) : s.store.jobs id = none := by rw [hempty]; rfl
  refine ⟨⟨?_, ?_⟩, fun i call p hi => absurd hi hnobody, fun i call p hi => absurd hi hnobody,
    fun i j call call' p p' id _ hi => absurd hi hnobody, ?_⟩
  · intro id job hjob
    rw [hnone id] at hjob
    cases hjob
  · intro key id hmem
    rw [hempty] at hmem
    cases hmem
  · intro id job hjob
    rw [hnone id] at hjob
    cases hjob

end Runs

/-- **When no job can get lost.** In every run that keeps to `CustodyStep`, every job that is queued or running is
    recoverable in every state. -/
theorem custody_law {s : RedisPool} (hs : (redisSystem.restrict CustodyStep).Reachable s) {id : Uuid} {job : Job}
    (hjob : s.store.jobs id = some job) (hlive : Live job.status) : Recoverable s id job := by
  have h := reachable_custodyInv hs
  rcases h.placed id job hjob hlive with (hqueue | ⟨hlock, key, hproc, hmem⟩) | ⟨i, call, p, hi, hcarries⟩
  · exact Or.inl hqueue
  · refine Or.inr (Or.inl ⟨Option.isSome_iff_exists.mp hlock, ⟨key, hproc, hmem⟩, ?_⟩)
    exact fun order now hexp => reap_returns h.consistent order hjob hproc hmem hexp
  · refine Or.inr (Or.inr ⟨i, call, p, hi, hcarries, ?_⟩)
    exact hcarries.delivers (h.safe i call p hi) h.consistent (h.unborn i call p hi)

/-! ### A producer dies between its two commands -/

/-- A producer that has started, that has stored the job without pushing it, and that has died. -/
def producing : RedisPool := (idlePool.next server Call.program (.start 0 (.enqueue 1 0 email))).getD idlePool
def stored : RedisPool := (producing.next server Call.program (.exec 0)).getD producing
def orphaned : RedisPool := (stored.next server Call.program (.crash 0)).getD stored

theorem stored_reachable : redisSystem.Reachable stored := by
  have hidle : redisSystem.Reachable idlePool := .start ⟨rfl, fun _ => rfl⟩
  have hstart : redisSystem.Reachable producing :=
    hidle.next (i := .start 0 (.enqueue 1 0 email)) ⟨rfl, email_newIds _⟩
  exact hstart.next (i := .exec 0) ⟨rfl, fun _ _ _ h => by cases h⟩

/-- The job is queued, and neither a list nor a client will ever bring it to a worker. -/
theorem enqueue_lost :
    redisSystem.Reachable orphaned ∧
    ∃ job, orphaned.store.jobs 1 = some job ∧ job.status = "queued" ∧ ¬Recoverable orphaned 1 job := by
  refine ⟨stored_reachable.next (i := .crash 0) ⟨rfl, fun _ _ _ h => by cases h⟩, _, rfl, rfl, ?_⟩
  rintro (hqueue | hreap | ⟨i, call, p, hi, _⟩)
  · cases hqueue
  · obtain ⟨key, _, hmem⟩ := hreap.inProcessing
    cases hmem
  · rcases i with _ | i <;> cases hi

/-- While the producer lives, the job it has stored is recoverable: it is about to be pushed. -/
theorem stored_recoverable : ∃ job, stored.store.jobs 1 = some job ∧ Recoverable stored 1 job := by
  have hidle : (redisSystem.restrict CustodyStep).Reachable idlePool := .start ⟨rfl, fun _ => rfl⟩
  have hstart : (redisSystem.restrict CustodyStep).Reachable producing := by
    refine hidle.next (i := .start 0 (.enqueue 1 0 email)) ⟨⟨rfl, email_newIds _⟩, ?_⟩
    constructor
    · intro i jobId now job hmove
      cases hmove
      decide
    · intro _ _ _ _ _ h
      cases h
    · intro _ _ _ _ _ h
      cases h
    · intro _ _ _ _ _ _ h
      cases h
  have hstored : (redisSystem.restrict CustodyStep).Reachable stored := by
    refine hstart.next (i := .exec 0) ⟨⟨rfl, fun _ _ _ h => by cases h⟩, ?_⟩
    constructor
    · intro _ _ _ _ h
      cases h
    · intro _ _ _ _ _ h
      cases h
    · intro i call id v k hmove hi hrun
      cases hmove
      cases hi
      exact absurd hrun (by decide)
    · intro i call key id k job hmove hi
      cases hmove
      cases hi
  exact ⟨_, rfl, custody_law hstored rfl (Or.inl rfl)⟩

end Azums.Redis
