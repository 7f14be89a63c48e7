import Azums.Redis.Backend

/-!
# `Redis.Footprint` — what a client may still write

No operation locks a record, so what a client may do to it depends on what it has read. `Writes bad id p` says that
the program `p` may put a record that meets `bad` under `id` before it reads that record again: until it does, nothing
that the others do can stop it. `program_writes` is the footprint of the calls: from its start, a call may write under
no id but the one it has just made.
-/

namespace Azums.Redis

variable {α β : Type} {bad : Job → Prop} {id : Uuid}

/-! ## Commands -/

/-- The command puts a record that meets `bad` under `id`. -/
def Command.puts (bad : Job → Prop) (id : Uuid) : Command → Prop
  | .hset id' job => id' = id ∧ bad job
  | _ => False

/-- The command reads the record of `id`. -/
def Command.reads (id : Uuid) : Command → Prop
  | .hget id' => id' = id
  | _ => False

/-! ## Programs -/

/-- `p` may put a record that meets `bad` under `id` before it reads that record again. -/
def Writes (bad : Job → Prop) (id : Uuid) : Cmds α → Prop
  | .done _ => False
  | .call c k => c.puts bad id ∨ (¬c.reads id ∧ ∃ r, Writes bad id (k r))

theorem writes_return {a : α} : ¬Writes bad id (return a : Cmds α) := fun h => h

/-- A command that touches no record passes the question on. -/
theorem writes_call {c : Command} {k : c.Reply → Cmds α} (hputs : ¬c.puts bad id)
    (hk : ∀ r, ¬Writes bad id (k r)) : ¬Writes bad id (.call c k) := by
  rintro (h | ⟨_, r, h⟩)
  · exact hputs h
  · exact hk r h

/-- After reading a record, a client has to say what it does only for the other ids. -/
theorem writes_hget {id' : Uuid} {k : Option Job → Cmds α}
    (hk : ∀ r, id' ≠ id → ¬Writes bad id (k r)) : ¬Writes bad id (.call (.hget id') k) := by
  rintro (h | ⟨hne, r, h⟩)
  · exact h
  · exact hk r hne h

theorem writes_hset {id' : Uuid} {job : Job} {k : Unit → Cmds α} (hputs : id' = id → ¬bad job)
    (hk : ¬Writes bad id (k ())) : ¬Writes bad id (.call (.hset id' job) k) := by
  exact writes_call (fun h => hputs h.1 h.2) (fun _ => hk)

/-! ## The operations -/

theorem withLease_writes {jobId : Uuid} {workerId : String} {missing refused : Outcome Answer}
    {act : Job → Cmds (Outcome Answer)} (hact : ∀ job, jobId ≠ id → ¬Writes bad id (act job)) :
    ¬Writes bad id (withLease jobId workerId missing refused act) := by
  refine writes_hget ?_
  rintro (_ | job) hne
  · exact writes_return
  show ¬Writes bad id (if _ then _ else _)
  split
  · exact hact job hne
  · exact writes_return

theorem leaseEach_writes {queue workerId : String} {now lockExpiresAt : DateTime} :
    ∀ (n : Nat) (leased : List Job), ¬Writes bad id (leaseEach queue workerId now lockExpiresAt n leased)
  | 0, _ => writes_return
  | n + 1, leased => by
      unfold leaseEach
      refine writes_call (fun h => h) ?_
      rintro (_ | jobId)
      · exact writes_return
      refine writes_hget ?_
      rintro (_ | job) hne
      · exact leaseEach_writes n leased
      show ¬Writes bad id (if now < job.runAt then _ else _)
      split
      · refine writes_call (fun h => h) (fun _ => writes_call (fun h => h) (fun _ => ?_))
        exact leaseEach_writes n leased
      split
      · refine writes_hset (fun he => absurd he hne) (writes_call (fun h => h) (fun _ => ?_))
        exact leaseEach_writes n leased
      · exact writes_hset (fun he => absurd he hne) (leaseEach_writes n _)

theorem reapList_writes {now : DateTime} {procKey target : String} {f : Nat → Cmds α}
    (hf : ∀ n, ¬Writes bad id (f n)) :
    ∀ (jids : List Uuid) (reaped : Nat), ¬Writes bad id (reapList now procKey target jids reaped >>= f)
  | [], reaped => hf reaped
  | jid :: rest, reaped => by
      unfold reapList
      refine writes_hget ?_
      rintro (_ | job) hne
      · exact reapList_writes hf rest reaped
      show ¬Writes bad id ((if _ then _ else _) >>= f)
      split
      · refine writes_hset (fun he => absurd he hne) (writes_call (fun h => h) (fun _ => ?_))
        refine writes_call (fun h => h) (fun _ => ?_)
        exact reapList_writes hf rest (reaped + 1)
      · exact reapList_writes hf rest reaped

theorem reapKeys_writes {now : DateTime} :
    ∀ (keys : List String) (reaped : Nat), ¬Writes bad id (reapKeys now keys reaped)
  | [], _ => writes_return
  | procKey :: rest, reaped => by
      unfold reapKeys
      split
      · exact reapKeys_writes rest reaped
      · refine writes_call (fun h => h) (fun jobIds => ?_)
        exact reapList_writes (reapKeys_writes rest) jobIds reaped

theorem startAttemptsBatch_writes {workerId : String} :
    ∀ (jobs : List (Uuid × Uuid)) (results : List (Uuid × Uuid × Int)),
      ¬Writes bad id (startAttemptsBatch workerId jobs results)
  | [], _ => writes_return
  | (jobId, attemptId) :: rest, results => by
      unfold startAttemptsBatch
      refine withLease_writes (fun job _ => ?_)
      exact writes_call (fun h => h) (fun _ => startAttemptsBatch_writes rest _)

theorem storeJob_writes {now : DateTime} {jobId : Uuid} {job : NewJob} (hne : jobId ≠ id) :
    ¬Writes bad id (storeJob now jobId job) :=
  writes_hset (fun he => absurd he hne) (writes_call (fun h => h) (fun _ => writes_return))

theorem recur_writes {next : Option Job} {nextId : Uuid} (hne : nextId ≠ id) : ¬Writes bad id (recur nextId next) := by
  cases next with
  | none => exact writes_return
  | some next =>
      exact writes_hset (fun he => absurd he hne) (writes_call (fun h => h) (fun _ => writes_return))

/-- **The footprint of a call.** Before it reads a record, a call writes under no id but the one it made itself. -/
theorem program_writes {call : Call} (h : Writes bad id call.program) : call.newId = some id := by
  by_contra hne
  revert h
  show ¬Writes bad id call.program
  cases call with
  | enqueue jobId now job =>
      have hid : jobId ≠ id := fun he => hne (congrArg some he)
      show ¬Writes bad id (enqueue jobId now job)
      unfold enqueue
      split
      · exact storeJob_writes hid
      · refine writes_call (fun h => h) ?_
        rintro (_ | _)
        · refine writes_call (fun h => h) ?_
          rintro (_ | existing) <;> exact writes_return
        · exact storeJob_writes hid
  | leaseJobsBatch now queue workerId leaseSeconds batchSize =>
      show ¬Writes bad id (leaseJobsBatch now queue workerId leaseSeconds batchSize)
      unfold leaseJobsBatch
      split
      · exact writes_return
      · exact leaseEach_writes _ _
  | reapExpiredLocks order now => exact writes_call (fun h => h) (fun keys => reapKeys_writes _ _)
  | startAttemptsBatch workerId jobs => exact startAttemptsBatch_writes jobs []
  -- from here on the call reads the record of the id it writes first, so what it writes there does not count
  | markSucceeded nextId now jobId workerId =>
      have hid : nextId ≠ id := fun he => hne (congrArg some he)
      refine withLease_writes (fun job hread => ?_)
      split
      · exact writes_return
      · refine writes_hset (fun he => absurd he hread) (writes_call (fun h => h) (fun _ => ?_))
        exact recur_writes hid
  | rescheduleForRetry now jobId workerId nextRunAt =>
      refine withLease_writes (fun job hread => ?_)
      refine writes_hset (fun he => absurd he hread) (writes_call (fun h => h) (fun _ => ?_))
      exact writes_call (fun h => h) (fun _ => writes_return)
  | markDlq dlqAt now jobId workerId reasonCode =>
      refine withLease_writes (fun job hread => ?_)
      exact writes_hset (fun he => absurd he hread) (writes_call (fun h => h) (fun _ => writes_return))
  | extendLease now jobId workerId leaseSeconds =>
      refine withLease_writes (fun job hread => ?_)
      split
      · exact writes_return
      · exact writes_hset (fun he => absurd he hread) writes_return
  | cancelJob now jobId workerId =>
      refine writes_hget ?_
      rintro (_ | job) hread
      · exact writes_return
      have hlast : ¬Writes bad id (cancelRecord now jobId job) :=
        writes_hset (fun he => absurd he hread) writes_return
      show ¬Writes bad id (cancelFound now jobId workerId job)
      unfold cancelFound
      split
      · exact writes_return
      split
      · exact writes_call (fun h => h) (fun _ => hlast)
      · exact hlast

end Azums.Redis
