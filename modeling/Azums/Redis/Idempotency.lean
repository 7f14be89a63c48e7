import Azums.Redis.Backend
import Azums.Lib.Discipline

/-!
# `Redis.Idempotency` — when a key stands for a stored job

`enqueue` with an idempotency key claims the key first (`HSETNX`) and writes the job's record afterwards (`HSET`). A
call that finds the key claimed returns the id that the key stands for, and does not look whether the job is there. So
it may return before the job is stored; and if the claiming client died in between, the key stands for no job for good,
and every later call returns its id.

`key_law` says when neither happens: in every run in which no client dies between its claim and its record, and no call
returns the id of a claim whose client is still there. That all calls with one key return the same id needs no
condition. `dead_claim_returned` is the run with a client that dies.
-/

namespace Azums.Redis

/-! ## History -/

/-- What has happened to keys: the ids that calls have returned for them, and for each client the key that it has claimed
    for an id and not stored the job of yet. -/
structure KeyHistory where
  answers : String → List Uuid
  writing : Nat → Option (String × Uuid)

namespace KeyHistory

/-- Nothing has happened. -/
def first : KeyHistory := { answers := fun _ => [], writing := fun _ => none }

/-- A client claims a key, or stores the record of the job. -/
def sent (i : Nat) (call : Call) (c : Command) (_ : Store) (r : c.Reply) (h : KeyHistory) : KeyHistory :=
  match call, c, r with
  | .enqueue .., .hsetnxIdempotency key id, claimed =>
      if claimed then { h with writing := Function.update h.writing i (some (key, id)) } else h
  | .enqueue .., .hset _ _, _ => { h with writing := Function.update h.writing i none }
  | _, _, _ => h

/-- An `enqueue` with a key returns an id. -/
def returned (_ : Nat) (call : Call) (a : Outcome Answer) (h : KeyHistory) : KeyHistory :=
  match call, a with
  | .enqueue _ _ job, .ok (.id id) =>
      match job.idempotencyKey with
      | some key => { h with answers := Function.update h.answers key (h.answers key ++ [id]) }
      | none => h
  | _, _ => h

end KeyHistory

/-- How the history follows the calls. -/
def keyRecorder : Recorder Nat Call Command Command.Reply (Outcome Answer) Store KeyHistory where
  exec := KeyHistory.sent
  finish := KeyHistory.returned
  crash i h := { h with writing := Function.update h.writing i none }

/-- The clients, their server and the history. -/
abbrev KeyPool := Observed Nat Call Command Command.Reply (Outcome Answer) Store KeyHistory

/-- Clients that make any calls, from a server with nothing in it. -/
def keySystem : System KeyPool (Move Nat Call) :=
  keyRecorder.system server Call.program (fun s => s = .empty) (fun _ => .first)

/-! ## The law -/

/-- The move is the return of an `enqueue` with this key, and it returns this id. -/
def ReturnsFor (o : KeyPool) (move : Move Nat Call) (key : String) (id : Uuid) : Prop :=
  ∃ i jobId now job, move = .finish i ∧
    o.pool.client i = some (.enqueue jobId now job, .done (.ok (.id id))) ∧ job.idempotencyKey = some key

/-- Every `enqueue` with a key that returns `Ok` returns the id that all calls with the key have returned before, and the
    job is stored at that time. -/
structure KeyLaw (o : KeyPool) (move : Move Nat Call) : Prop where
  same : ∀ key id, ReturnsFor o move key id → ∀ id' ∈ o.history.answers key, id' = id
  stored : ∀ key id, ReturnsFor o move key id → ∃ job, o.pool.store.jobs id = some job

/-- The client has claimed this key and is about to store the job. -/
def Claiming (o : KeyPool) (i : Nat) (key : String) : Prop :=
  ∃ jobId now job id record k, o.pool.client i = some (.enqueue jobId now job, .call (.hset id record) k) ∧
    job.idempotencyKey = some key

/-- The steps at which no claim is taken for a job: no client dies while it is claiming a key, and no call returns an id
    for a key that a client is still claiming. -/
structure ClaimStep (o : KeyPool) (move : Move Nat Call) (_ : KeyPool) : Prop where
  survive : ∀ i key, move = .crash i → ¬Claiming o i key
  settled : ∀ key id, ReturnsFor o move key id → ∀ i, ¬Claiming o i key

/-! ## Who claims keys -/

/-- The command claims a key. -/
def Command.Claims : Command → Prop
  | .hsetnxIdempotency _ _ => True
  | _ => False

theorem withLease_avoids {jobId : Uuid} {workerId : String} {missing refused : Outcome Answer}
    {act : Job → Cmds (Outcome Answer)} (hact : ∀ job, (act job).Avoids Command.Claims) :
    (withLease jobId workerId missing refused act).Avoids Command.Claims := by
  refine ⟨fun h => h, ?_⟩
  rintro (_ | job)
  · exact trivial
  show Prog.Avoids Command.Claims (if holdsLease workerId job then act job else return refused)
  split
  · exact hact job
  · exact trivial

theorem leaseEach_avoids {queue workerId : String} {now lockExpiresAt : DateTime} :
    ∀ (n : Nat) (leased : List Job),
      (leaseEach queue workerId now lockExpiresAt n leased).Avoids Command.Claims
  | 0, _ => trivial
  | n + 1, leased => by
      unfold leaseEach
      refine ⟨fun h => h, ?_⟩
      rintro (_ | jobId)
      · exact trivial
      refine ⟨fun h => h, ?_⟩
      rintro (_ | job)
      · exact leaseEach_avoids n leased
      show Prog.Avoids Command.Claims (if now < job.runAt then _ else _)
      split
      · exact ⟨fun h => h, fun _ => ⟨fun h => h, fun _ => leaseEach_avoids n leased⟩⟩
      split
      · exact ⟨fun h => h, fun _ => ⟨fun h => h, fun _ => leaseEach_avoids n leased⟩⟩
      · exact ⟨fun h => h, fun _ => leaseEach_avoids n _⟩

theorem reapList_avoids {α : Type} {now : DateTime} {procKey target : String} {f : Nat → Cmds α}
    (hf : ∀ n, (f n).Avoids Command.Claims) :
    ∀ (jids : List Uuid) (reaped : Nat),
      (reapList now procKey target jids reaped >>= f).Avoids Command.Claims
  | [], reaped => hf reaped
  | jid :: rest, reaped => by
      unfold reapList
      refine ⟨fun h => h, ?_⟩
      rintro (_ | job)
      · exact reapList_avoids hf rest reaped
      show Prog.Avoids Command.Claims ((if _ then _ else _) >>= f)
      split
      · exact ⟨fun h => h, fun _ => ⟨fun h => h, fun _ => ⟨fun h => h, fun _ => reapList_avoids hf rest _⟩⟩⟩
      · exact reapList_avoids hf rest reaped

theorem reapKeys_avoids {now : DateTime} :
    ∀ (keys : List String) (reaped : Nat), (reapKeys now keys reaped).Avoids Command.Claims
  | [], _ => trivial
  | procKey :: rest, reaped => by
      unfold reapKeys
      split
      · exact reapKeys_avoids rest reaped
      · exact ⟨fun h => h, fun jobIds => reapList_avoids (reapKeys_avoids rest) jobIds reaped⟩

theorem startAttemptsBatch_avoids {workerId : String} :
    ∀ (jobs : List (Uuid × Uuid)) (results : List (Uuid × Uuid × Int)),
      (startAttemptsBatch workerId jobs results).Avoids Command.Claims
  | [], _ => trivial
  | (jobId, attemptId) :: rest, results => by
      unfold startAttemptsBatch
      exact withLease_avoids fun job => ⟨fun h => h, fun _ => startAttemptsBatch_avoids rest _⟩

/-- **Only `enqueue` claims keys.** -/
theorem program_avoids {call : Call} (hcall : ∀ jobId now job, call ≠ .enqueue jobId now job) :
    call.program.Avoids Command.Claims := by
  cases call with
  | enqueue jobId now job => exact absurd rfl (hcall jobId now job)
  | leaseJobsBatch now queue workerId leaseSeconds batchSize =>
      show Prog.Avoids Command.Claims (leaseJobsBatch now queue workerId leaseSeconds batchSize)
      unfold leaseJobsBatch
      split
      · exact trivial
      · exact leaseEach_avoids _ _
  | reapExpiredLocks order now => exact ⟨fun h => h, fun keys => reapKeys_avoids _ _⟩
  | startAttemptsBatch workerId jobs => exact startAttemptsBatch_avoids jobs []
  | markSucceeded nextId now jobId workerId =>
      refine withLease_avoids fun job => ?_
      split
      · exact trivial
      · rename_i next _
        refine ⟨fun h => h, fun _ => ⟨fun h => h, fun _ => ?_⟩⟩
        cases next with
        | none => exact trivial
        | some next => exact ⟨fun h => h, fun _ => ⟨fun h => h, fun _ => trivial⟩⟩
  | rescheduleForRetry now jobId workerId nextRunAt =>
      exact withLease_avoids fun job =>
        ⟨fun h => h, fun _ => ⟨fun h => h, fun _ => ⟨fun h => h, fun _ => trivial⟩⟩⟩
  | markDlq dlqAt now jobId workerId reasonCode =>
      exact withLease_avoids fun job => ⟨fun h => h, fun _ => ⟨fun h => h, fun _ => trivial⟩⟩
  | extendLease now jobId workerId leaseSeconds =>
      refine withLease_avoids fun job => ?_
      split
      · exact trivial
      · exact ⟨fun h => h, fun _ => trivial⟩
  | cancelJob now jobId workerId =>
      refine ⟨fun h => h, ?_⟩
      rintro (_ | job)
      · exact trivial
      show Prog.Avoids Command.Claims (cancelFound now jobId workerId job)
      unfold cancelFound
      split
      · exact trivial
      split
      · exact ⟨fun h => h, fun _ => ⟨fun h => h, fun _ => trivial⟩⟩
      · exact ⟨fun h => h, fun _ => trivial⟩

/-! ## The discipline of the calls -/

/-- A key stands for a stored job, or for one that a client is about to store; and it stands for what was returned. -/
structure KeyInv (w : World Store KeyHistory) : Prop where
  claimed : ∀ key id, w.store.idempotency key = some id →
    (∃ job, w.store.jobs id = some job) ∨ ∃ i, w.history.writing i = some (key, id)
  answered : ∀ key, ∀ id ∈ w.history.answers key, w.store.idempotency key = some id

/-- What client `i` relies on: the others leave its claim alone, and records and keys stay. -/
structure KeyRely (i : Nat) (w w' : World Store KeyHistory) : Prop where
  writing : w'.history.writing i = w.history.writing i
  jobs : ∀ id job, w.store.jobs id = some job → ∃ job', w'.store.jobs id = some job'
  keys : ∀ key id, w.store.idempotency key = some id → w'.store.idempotency key = some id

/-- What a client promises: only `enqueue` claims keys, and while it has claimed one, its next command stores the job. -/
structure KeyPromise (i : Nat) (call : Call) (c : Command) (w : World Store KeyHistory) : Prop where
  claims : c.Claims → ∃ jobId now job, call = .enqueue jobId now job
  writes : w.history.writing i = none ∨
    ∃ jobId now job key id record, call = .enqueue jobId now job ∧ c = .hset id record ∧
      job.idempotencyKey = some key ∧ w.history.writing i = some (key, id)

/-- What a client returns: it has claimed nothing any more, and an `enqueue` returns what its key stands for. -/
structure KeyResult (i : Nat) (call : Call) (a : Outcome Answer) (w : World Store KeyHistory) : Prop where
  settled : w.history.writing i = none
  answer : ∀ jobId now job key id, call = .enqueue jobId now job → job.idempotencyKey = some key →
    a = .ok (.id id) → w.store.idempotency key = some id

/-- The discipline of the calls. -/
def keyDiscipline : Discipline Nat Call Command (Outcome Answer) Store KeyHistory where
  inv := KeyInv
  idle i w := w.history.writing i = none
  rely := KeyRely
  promise := KeyPromise
  result := KeyResult

theorem KeyRely.refl (i : Nat) (w : World Store KeyHistory) : KeyRely i w w :=
  ⟨rfl, fun _ job h => ⟨job, h⟩, fun _ _ h => h⟩

theorem KeyRely.trans {i : Nat} {w w' w'' : World Store KeyHistory} (h : KeyRely i w w') (h' : KeyRely i w' w'') :
    KeyRely i w w'' := by
  refine ⟨h'.writing.trans h.writing, fun id job hjob => ?_, fun key id hid => h'.keys key id (h.keys key id hid)⟩
  obtain ⟨job', hjob'⟩ := h.jobs id job hjob
  exact h'.jobs id job' hjob'

/-! ### What a command does -/

/-- No command removes a record. -/
theorem Command.exec_keeps_jobs (c : Command) (s : Store) {id : Uuid} {job : Job} (h : s.jobs id = some job) :
    ∃ job', (c.exec s).2.jobs id = some job' := by
  by_cases hc : ∃ job', c = .hset id job'
  · obtain ⟨job', rfl⟩ := hc
    exact ⟨job', Command.exec_hset⟩
  · exact ⟨job, (Command.exec_jobs fun job' heq => hc ⟨job', heq⟩).trans h⟩

/-- A key that is claimed keeps its id. -/
theorem Command.exec_keeps_key (c : Command) (s : Store) {key : String} {id : Uuid}
    (h : s.idempotency key = some id) : (c.exec s).2.idempotency key = some id := by
  cases c with
  | hsetnxIdempotency key' id' =>
      cases hkey : s.idempotency key' with
      | some _ =>
          simp only [Command.exec, hkey]
          exact h
      | none =>
          have hne : key ≠ key' := by
            rintro rfl
            rw [hkey] at h
            cases h
          simp only [Command.exec, hkey]
          exact (Function.update_of_ne hne ..).trans h
  | lmove source destination =>
      cases hhead : (s.list source).head? <;> simp only [Command.exec, hhead] <;> exact h
  | _ => exact h

/-- A key comes to stand for an id only by a claim that is answered with `true`. -/
theorem Command.exec_new_key (c : Command) (s : Store) {key : String} {id : Uuid}
    (h : (c.exec s).2.idempotency key = some id) :
    s.idempotency key = some id ∨ (c = .hsetnxIdempotency key id ∧ s.idempotency key = none) := by
  cases c with
  | hsetnxIdempotency key' id' =>
      cases hkey : s.idempotency key' with
      | some _ =>
          simp only [Command.exec, hkey] at h
          exact Or.inl h
      | none =>
          simp only [Command.exec, hkey] at h
          by_cases hk : key = key'
          · subst hk
            rw [Function.update_self] at h
            obtain rfl := Option.some.inj h
            exact Or.inr ⟨rfl, hkey⟩
          · rw [Function.update_of_ne hk] at h
            exact Or.inl h
  | lmove source destination =>
      cases hhead : (s.list source).head? <;> simp only [Command.exec, hhead] at h <;> exact Or.inl h
  | _ => exact Or.inl h

section Sent

variable {i j : Nat} {call : Call} {c : Command} {s : Store} {r : c.Reply} {h : KeyHistory}

@[simp] theorem sent_answers : (KeyHistory.sent i call c s r h).answers = h.answers := by
  unfold KeyHistory.sent
  split
  · split <;> rfl
  · rfl
  · rfl

/-- A command is no other client's claim. -/
theorem sent_writing_of_ne (hj : j ≠ i) : (KeyHistory.sent i call c s r h).writing j = h.writing j := by
  unfold KeyHistory.sent
  split
  · split
    · exact Function.update_of_ne hj ..
    · rfl
  · exact Function.update_of_ne hj ..
  · rfl

/-- Only `enqueue` claims keys. -/
theorem sent_of_not_enqueue (hcall : ∀ jobId now job, call ≠ .enqueue jobId now job) :
    KeyHistory.sent i call c s r h = h := by
  unfold KeyHistory.sent
  split
  · exact absurd rfl (hcall _ _ _)
  · exact absurd rfl (hcall _ _ _)
  · rfl

@[simp] theorem returned_writing {a : Outcome Answer} : (KeyHistory.returned i call a h).writing = h.writing := by
  unfold KeyHistory.returned
  split
  · split <;> rfl
  · rfl

/-- What has been returned for a key: what was before, or the id that this `enqueue` returns. -/
theorem mem_returned {a : Outcome Answer} {key : String} {id : Uuid}
    (hid : id ∈ (KeyHistory.returned i call a h).answers key) :
    id ∈ h.answers key ∨
      ∃ jobId now job, call = .enqueue jobId now job ∧ job.idempotencyKey = some key ∧ a = .ok (.id id) := by
  unfold KeyHistory.returned at hid
  split at hid
  · rename_i jobId now job id'
    cases hjob : job.idempotencyKey with
    | none =>
        simp only [hjob] at hid
        exact Or.inl hid
    | some key' =>
        simp only [hjob] at hid
        by_cases hkey : key = key'
        · subst hkey
          rw [Function.update_self, List.mem_append, List.mem_singleton] at hid
          rcases hid with hold | rfl
          · exact Or.inl hold
          · exact Or.inr ⟨jobId, now, job, rfl, hjob, rfl⟩
        · rw [Function.update_of_ne hkey] at hid
          exact Or.inl hid
  · exact Or.inl hid

end Sent

/-! ### The calls -/

section Keeps

variable {i : Nat} {w : World Store KeyHistory}

/-- Any other call has nothing to do with keys. -/
theorem other_keeps_keys {call : Call} (hcall : ∀ jobId now job, call ≠ .enqueue jobId now job)
    (hidle : w.history.writing i = none) : keyDiscipline.Keeps keyRecorder server i call call.program w := by
  refine Discipline.keeps_of_avoids (P := Command.Claims) (I := fun w => w.history.writing i = none)
    (fun w w' hrely hI => (KeyRely.writing hrely).trans hI) ?_ ?_ ?_ _ w (program_avoids hcall) hidle
  · exact fun c w hc hI => ⟨fun h => absurd h hc, Or.inl hI⟩
  · exact fun a w hI => ⟨hI, fun jobId now job key id heq => absurd heq (hcall jobId now job)⟩
  · intro c w r σ' _ hI _
    show (KeyHistory.sent i call c w.store r w.history).writing i = none
    rw [sent_of_not_enqueue hcall]
    exact hI

/-- The part of `enqueue` that writes, with the key claimed or without a key. -/
theorem storeJob_keeps {jobId : Uuid} {now : DateTime} {job : NewJob}
    (hkey : ∀ key, job.idempotencyKey = some key →
      w.history.writing i = some (key, jobId) ∧ w.store.idempotency key = some jobId)
    (hnone : job.idempotencyKey = none → w.history.writing i = none) :
    keyDiscipline.Keeps keyRecorder server i (.enqueue jobId now job) (storeJob now jobId job) w := by
  intro w₁ h₁ _
  refine ⟨⟨fun h => h.elim, ?_⟩, fun r σ₁ hans _ => ?_⟩
  · cases hjob : job.idempotencyKey with
    | none => exact Or.inl (h₁.writing.trans (hnone hjob))
    | some key =>
        exact Or.inr ⟨jobId, now, job, key, jobId, _, rfl, rfl, hjob, h₁.writing.trans (hkey key hjob).1⟩
  -- the record is there, and nothing is claimed any more
  intro w₂ h₂ _
  have hwriting : w₂.history.writing i = none := h₂.writing.trans (Function.update_self ..)
  refine ⟨⟨fun h => h.elim, Or.inl hwriting⟩, fun r' σ₂ hans₂ _ => ?_⟩
  intro w₃ h₃ _
  refine ⟨h₃.writing.trans hwriting, ?_⟩
  rintro _ _ _ key _ ⟨⟩ hjob ⟨⟩
  obtain rfl : σ₁ = ((Command.hset jobId (jobEntity now jobId job)).exec w₁.store).2 :=
    (congrArg Prod.snd (Option.some.inj hans)).symm
  obtain rfl : σ₂ = ((Command.rpush (queueKey job.queue) jobId).exec w₂.store).2 :=
    (congrArg Prod.snd (Option.some.inj hans₂)).symm
  exact h₃.keys key jobId (h₂.keys key jobId (h₁.keys key jobId (hkey key hjob).2))

theorem enqueue_keeps {jobId : Uuid} {now : DateTime} {job : NewJob} (hidle : w.history.writing i = none) :
    keyDiscipline.Keeps keyRecorder server i (.enqueue jobId now job) (enqueue jobId now job) w := by
  unfold enqueue
  cases hjob : job.idempotencyKey with
  | none => exact storeJob_keeps (fun key hkey => by rw [hjob] at hkey; cases hkey) (fun _ => hidle)
  | some key =>
      intro w₁ h₁ _
      have hidle₁ : w₁.history.writing i = none := h₁.writing.trans hidle
      refine ⟨⟨fun _ => ⟨jobId, now, job, rfl⟩, Or.inl hidle₁⟩, fun claimed σ₁ hans _ => ?_⟩
      have hexec : (Command.hsetnxIdempotency key jobId).exec w₁.store = (claimed, σ₁) := Option.some.inj hans
      cases hk : w₁.store.idempotency key with
      | none =>
          -- the claim succeeds
          simp only [Command.exec, hk, Prod.mk.injEq] at hexec
          obtain ⟨rfl, rfl⟩ := hexec
          refine storeJob_keeps (fun key' hkey' => ?_) (fun hnone => by rw [hjob] at hnone; cases hnone)
          rw [hjob] at hkey'
          obtain rfl := Option.some.inj hkey'
          exact ⟨Function.update_self .., Function.update_self ..⟩
      | some existing =>
          -- the key is claimed already, and stays so until it is read
          simp only [Command.exec, hk, Prod.mk.injEq] at hexec
          obtain ⟨rfl, rfl⟩ := hexec
          intro w₂ h₂ _
          have hk₂ : w₂.store.idempotency key = some existing := h₂.keys key existing hk
          have hidle₂ : w₂.history.writing i = none := h₂.writing.trans hidle₁
          refine ⟨⟨fun h => h.elim, Or.inl hidle₂⟩, fun reply σ₂ hans₂ _ => ?_⟩
          have hexec₂ : (Command.hgetIdempotency key).exec w₂.store = (reply, σ₂) := Option.some.inj hans₂
          obtain rfl : reply = some existing := (Prod.mk.inj hexec₂).1.symm.trans hk₂
          obtain rfl : w₂.store = σ₂ := (Prod.mk.inj hexec₂).2
          intro w₃ h₃ _
          refine ⟨h₃.writing.trans hidle₂, ?_⟩
          rintro _ _ _ key' _ ⟨⟩ hkey' ⟨⟩
          rw [hjob] at hkey'
          obtain rfl := Option.some.inj hkey'
          exact h₃.keys key existing hk₂

end Keeps

/-! ### The steps -/

/-- A command is sent. -/
theorem exec_keyInv {i : Nat} {call : Call} {c : Command} {s : Store} {h : KeyHistory}
    (hinv : KeyInv { store := s, history := h }) (hpromise : KeyPromise i call c { store := s, history := h }) :
    KeyInv { store := (c.exec s).2, history := KeyHistory.sent i call c s (c.exec s).1 h } := by
  constructor
  · intro key id hid
    rcases Command.exec_new_key c s hid with hold | ⟨rfl, hfree⟩
    · rcases hinv.claimed key id hold with ⟨job, hjob⟩ | ⟨j, hj⟩
      · exact Or.inl (c.exec_keeps_jobs s hjob)
      · by_cases hji : j = i
        · -- the client that has claimed the key stores the job
          subst hji
          rcases hpromise.writes with hnone | ⟨jobId, now, job, key', id', record, rfl, rfl, _, hwriting⟩
          · rw [show h.writing j = none from hnone] at hj
            cases hj
          · rw [show h.writing j = some (key', id') from hwriting] at hj
            obtain ⟨rfl, rfl⟩ := Prod.mk.inj (Option.some.inj hj)
            exact Or.inl ⟨record, Command.exec_hset⟩
        · exact Or.inr ⟨j, (sent_writing_of_ne (s := s) hji).trans hj⟩
    · obtain ⟨jobId, now, job, rfl⟩ := hpromise.claims trivial
      refine Or.inr ⟨i, ?_⟩
      have hans : ((Command.hsetnxIdempotency key id).exec s).1 = true := by
        simp only [Command.exec, show s.idempotency key = none from hfree]
      show (KeyHistory.sent i (.enqueue jobId now job) (.hsetnxIdempotency key id) s _ h).writing i = some (key, id)
      rw [hans]
      exact Function.update_self ..
  · intro key id hid
    have hold : id ∈ h.answers key := by
      rw [← sent_answers (i := i) (h := h) (c := c) (s := s) (r := (c.exec s).1)]
      exact hid
    exact c.exec_keeps_key s (hinv.answered key id hold)

/-- A command is one that the other clients rely on. -/
theorem exec_keyRely {i j : Nat} {call : Call} {c : Command} {s : Store} {h : KeyHistory} (hj : j ≠ i) :
    KeyRely j { store := s, history := h }
      { store := (c.exec s).2, history := KeyHistory.sent i call c s (c.exec s).1 h } :=
  ⟨sent_writing_of_ne (s := s) hj, fun _ _ hjob => c.exec_keeps_jobs s hjob, fun _ _ hid => c.exec_keeps_key s hid⟩

/-- A call returns. -/
theorem finish_keyInv {i : Nat} {call : Call} {a : Outcome Answer} {s : Store} {h : KeyHistory}
    (hinv : KeyInv { store := s, history := h }) (hresult : KeyResult i call a { store := s, history := h }) :
    KeyInv { store := s, history := KeyHistory.returned i call a h } := by
  constructor
  · intro key id hid
    rw [returned_writing]
    exact hinv.claimed key id hid
  · intro key id hid
    rcases mem_returned (i := i) hid with hold | ⟨jobId, now, job, rfl, hjob, rfl⟩
    · exact hinv.answered key id hold
    · exact hresult.answer jobId now job key id rfl hjob rfl

/-- A client dies that is not claiming a key. -/
theorem crash_keyInv {i : Nat} {s : Store} {h : KeyHistory} (hinv : KeyInv { store := s, history := h })
    (hidle : h.writing i = none) :
    KeyInv { store := s, history := { h with writing := Function.update h.writing i none } } := by
  refine ⟨fun key id hid => ?_, hinv.answered⟩
  rcases hinv.claimed key id hid with hjob | ⟨j, hj⟩
  · exact Or.inl hjob
  · refine Or.inr ⟨j, ?_⟩
    show Function.update h.writing i none j = some (key, id)
    rw [← hidle, Function.update_eq_self]
    exact hj

/-- A client whose history says that it is claiming a key is about to store the job. -/
theorem claiming_of_writing {o : KeyPool} {i : Nat} {key : String} {id : Uuid}
    (h : keyDiscipline.Holds keyRecorder server o) (hwriting : o.history.writing i = some (key, id)) :
    Claiming o i key := by
  have hstand := h.stands i
  rcases hrun : o.pool.client i with _ | ⟨call, a | ⟨c, k⟩⟩
  · rw [hrun] at hstand
    rw [show o.history.writing i = none from hstand] at hwriting
    cases hwriting
  · rw [hrun] at hstand
    have hresult : KeyResult i call a o.world := hstand o.world (KeyRely.refl i _) h.inv
    rw [show o.history.writing i = none from hresult.settled] at hwriting
    cases hwriting
  · rw [hrun] at hstand
    have hpromise : KeyPromise i call c o.world := (hstand o.world (KeyRely.refl i _) h.inv).1
    rcases hpromise.writes with hnone | ⟨jobId, now, job, key', id', record, rfl, rfl, hjob, hkey⟩
    · rw [show o.history.writing i = none from hnone] at hwriting
      cases hwriting
    · rw [show o.history.writing i = some (key', id') from hkey] at hwriting
      obtain ⟨rfl, rfl⟩ := Prod.mk.inj (Option.some.inj hwriting)
      exact ⟨jobId, now, job, id', record, k, hrun, hjob⟩

/-- **The calls keep the discipline**, where no client dies while it is claiming a key. -/
theorem keys_obeyed :
    keyDiscipline.Obeyed keyRecorder server Call.program (keySystem.restrict ClaimStep) where
  next h := h.1
  refl := KeyRely.refl
  trans _ _ _ _ := KeyRely.trans
  idle hidle hrely := hrely.writing.trans hidle
  init := by
    rintro o ⟨hstore, hclients, hhist⟩
    have hw : o.world = { store := .empty, history := .first } := by
      rw [← hstore, ← show o.history = KeyHistory.first from hhist]
      rfl
    rw [hw]
    exact ⟨hclients, ⟨fun key id h => (by cases h), fun key id h => (by cases h)⟩, fun _ => rfl⟩
  start := by
    intro o i call o' h _ hidle
    refine ⟨⟨h.inv, fun j _ => KeyRely.refl j _⟩, ?_⟩
    by_cases hcall : ∃ jobId now job, call = .enqueue jobId now job
    · obtain ⟨jobId, now, job, rfl⟩ := hcall
      exact enqueue_keeps hidle
    · exact other_keeps_keys (fun jobId now job heq => hcall ⟨jobId, now, job, heq⟩) hidle
  exec := by
    intro o i call c k r σ' o' h _ _ hexec hpromise
    have heq : c.exec o.pool.store = (r, σ') := Option.some.inj hexec
    obtain ⟨rfl, rfl⟩ := Prod.mk.inj heq
    exact ⟨exec_keyInv h.inv hpromise, fun j hj => exec_keyRely hj⟩
  finish := by
    intro o i call a o' h _ _ hresult
    refine ⟨⟨finish_keyInv h.inv hresult, fun j _ => ⟨?_, fun _ job hjob => ⟨job, hjob⟩, fun _ _ hid => hid⟩⟩, ?_⟩
    · show (KeyHistory.returned i call a o.history).writing j = o.history.writing j
      rw [returned_writing]
    · show (KeyHistory.returned i call a o.history).writing i = none
      rw [returned_writing]
      exact hresult.settled
  crash := by
    intro o i call p o' h hstep _ _
    have hidle : o.history.writing i = none := by
      rcases hwriting : o.history.writing i with _ | ⟨key, id⟩
      · rfl
      · exact absurd (claiming_of_writing h hwriting) (hstep.2.survive i key rfl)
    refine ⟨⟨crash_keyInv h.inv hidle, fun j hj => ⟨?_, fun _ job hjob => ⟨job, hjob⟩, fun _ _ hid => hid⟩⟩, ?_⟩
    · exact Function.update_of_ne hj ..
    · exact Function.update_self ..

/-- **When a key stands for a stored job.** In every run in which no client dies while it is claiming a key, and no call
    returns while a client is claiming its key: every `enqueue` with a key that returns `Ok` returns the id that all
    calls with the key have returned before, and the job is stored at that time. -/
theorem key_law {o o' : KeyPool} {move : Move Nat Call} (ho : (keySystem.restrict ClaimStep).Reachable o)
    (hstep : (keySystem.restrict ClaimStep).step o move o') : KeyLaw o move := by
  have h := keys_obeyed.holds ho
  have hkey : ∀ key id, ReturnsFor o move key id → o.pool.store.idempotency key = some id := by
    rintro key id ⟨i, jobId, now, job, _, hrun, hjob⟩
    have hresult : KeyResult i (.enqueue jobId now job) (.ok (.id id)) o.world := keys_obeyed.result_of h hrun
    exact hresult.answer jobId now job key id rfl hjob rfl
  constructor
  · intro key id hret id' hid'
    have heq := h.inv.answered key id' hid'
    rw [show o.world.store.idempotency key = some id from hkey key id hret] at heq
    exact (Option.some.inj heq).symm
  · intro key id hret
    rcases h.inv.claimed key id (hkey key id hret) with hjob | ⟨j, hj⟩
    · exact hjob
    · exact absurd (claiming_of_writing h hj) (hstep.2.settled key id hret j)

/-! ### A client that dies in between -/

/-- A server that has just been started, and no client. -/
def idleKeys : KeyPool :=
  { pool := { store := .empty, client := fun _ => none }, history := .first }

/-- A job with an idempotency key. -/
def invoiceJob : NewJob :=
  { queue := "billing"
    jobType := "invoice"
    payloadJson := "order 7"
    idempotencyKey := some "invoice-7"
    runAt := 0
    deadlineAt := none
    timeoutSeconds := none
    recurringIntervalSeconds := none
    priority := 0
    maxAttempts := 3 }

/-- Client 0 claims the key and dies; client 1 enqueues the same job. -/
def deadClaim : List (Move Nat Call) :=
  [.start 0 (.enqueue 1 0 invoiceJob), .exec 0, .crash 0,
    .start 1 (.enqueue 2 0 invoiceJob), .exec 1, .exec 1, .finish 1]

/-- That run after `n` of its moves. -/
def deadClaimAfter (n : Nat) : KeyPool :=
  (keyRecorder.run server Call.program idleKeys (deadClaim.take n)).getD idleKeys

theorem idleKeys_reachable : keySystem.Reachable idleKeys := .start ⟨rfl, fun _ => rfl, rfl⟩

/-- The second client returns the id of a job that does not exist. -/
theorem dead_claim_returned :
    keySystem.Reachable (deadClaimAfter 6) ∧ keySystem.step (deadClaimAfter 6) (.finish 1) (deadClaimAfter 7) ∧
    ReturnsFor (deadClaimAfter 6) (.finish 1) "invoice-7" 1 ∧ (deadClaimAfter 6).pool.store.jobs 1 = none ∧
    ¬KeyLaw (deadClaimAfter 6) (.finish 1) := by
  have hreturns : ReturnsFor (deadClaimAfter 6) (.finish 1) "invoice-7" 1 := ⟨1, 2, 0, invoiceJob, rfl, rfl, rfl⟩
  have hgone : (deadClaimAfter 6).pool.store.jobs 1 = none := rfl
  refine ⟨Recorder.reachable_run (deadClaim.take 6) idleKeys_reachable rfl, rfl, hreturns, hgone, fun hlaw => ?_⟩
  obtain ⟨job, hjob⟩ := hlaw.stored _ _ hreturns
  rw [hgone] at hjob
  cases hjob

/-! ### Two calls in order -/

/-- The move neither ends a call nor a client. -/
def goesOn : Move Nat Call → Bool
  | .start _ _ | .exec _ => true
  | .finish _ | .crash _ => false

theorem claimStep_of_goesOn {o o' : KeyPool} {move : Move Nat Call} (h : goesOn move = true) : ClaimStep o move o' := by
  constructor
  · rintro i key rfl
    cases h
  · rintro key id ⟨i, jobId, now, job, rfl, -, -⟩
    cases h

theorem reachable_goesOn {o o' : KeyPool} (moves : List (Move Nat Call))
    (hmoves : System.takes (keyRecorder.next server Call.program) (fun _ => goesOn) o moves = true)
    (ho : (keySystem.restrict ClaimStep).Reachable o)
    (h : keyRecorder.run server Call.program o moves = some o') : (keySystem.restrict ClaimStep).Reachable o' :=
  Recorder.reachable_along (fun _ => goesOn) (fun hmove hnext => ⟨hnext, claimStep_of_goesOn hmove⟩) moves hmoves ho h

/-- Client 0 enqueues a job to the end, and client 1 enqueues it again. -/
def secondEnqueue : List (Move Nat Call) :=
  [.start 0 (.enqueue 1 0 invoiceJob), .exec 0, .exec 0, .exec 0, .finish 0,
    .start 1 (.enqueue 2 0 invoiceJob), .exec 1, .exec 1, .finish 1]

/-- That run after `n` of its moves. -/
def secondEnqueueAfter (n : Nat) : KeyPool :=
  (keyRecorder.run server Call.program idleKeys (secondEnqueue.take n)).getD idleKeys

/-- A client with no command left is claiming nothing. -/
theorem not_claiming_of_client {o : KeyPool} {i : Nat} {key : String}
    (h : o.pool.client i = none ∨ ∃ call a, o.pool.client i = some (call, .done a)) : ¬Claiming o i key := by
  rintro ⟨jobId, now, job, id, record, k, hi, _⟩
  rcases h with hnone | ⟨call, a, hdone⟩
  · rw [hnone] at hi
    cases hi
  · rw [hdone] at hi
    cases hi

/-- The second call returns the id of the first, and the job is stored. -/
theorem second_enqueue_lawful :
    KeyLaw (secondEnqueueAfter 8) (.finish 1) ∧ ReturnsFor (secondEnqueueAfter 8) (.finish 1) "invoice-7" 1 := by
  have h₀ : (keySystem.restrict ClaimStep).Reachable (secondEnqueueAfter 0) := .start ⟨rfl, fun _ => rfl, rfl⟩
  have h₄ : (keySystem.restrict ClaimStep).Reachable (secondEnqueueAfter 4) :=
    reachable_goesOn (secondEnqueue.take 4) rfl h₀ rfl
  have h₅ : (keySystem.restrict ClaimStep).Reachable (secondEnqueueAfter 5) := by
    refine h₄.next (i := .finish 0) ⟨rfl, ⟨fun i key h => (by cases h), fun key id _ i => ?_⟩⟩
    rcases i with _ | i
    · exact not_claiming_of_client (Or.inr ⟨_, _, rfl⟩)
    · exact not_claiming_of_client (Or.inl rfl)
  have h₈ : (keySystem.restrict ClaimStep).Reachable (secondEnqueueAfter 8) :=
    reachable_goesOn ((secondEnqueue.take 8).drop 5) rfl h₅ rfl
  have hend : (keySystem.restrict ClaimStep).step (secondEnqueueAfter 8) (.finish 1) (secondEnqueueAfter 9) := by
    refine ⟨rfl, ⟨fun i key h => (by cases h), fun key id _ i => ?_⟩⟩
    rcases i with _ | _ | i
    · exact not_claiming_of_client (Or.inl rfl)
    · exact not_claiming_of_client (Or.inr ⟨_, _, rfl⟩)
    · exact not_claiming_of_client (Or.inl rfl)
  exact ⟨key_law h₈ hend, 1, 2, 0, invoiceJob, rfl, rfl, rfl⟩

end Azums.Redis
