import Azums.Lib.Discipline
import Azums.Redis.Custody
import Azums.Redis.Progress

/-!
# `Redis.Isolation` — whether a job stays in its queue

A leased job waits in a processing list, whose key is made of the names of its queue and of its worker. When the lease
has expired, `reap_expired_locks` splits the key at its colons and takes the third part for the queue. `isolates_iff`
says for which queue names this is right, whatever the other queues and the workers are called: for those without a
colon.

That the jobs of such a queue get into no other lists holds in every run: it is the invariant `PlaceInv`, which says for
every entry that a job with a plain queue name is in a list of its queue. What the clients contribute is a discipline
(`Lib.Discipline`): a client pushes an id only to a list of its queue, moves ids only between the two lists of a queue,
and rewrites no record's queue. The history keeps the id that a call has made and has not written yet.
-/

namespace Azums.Redis

/-! ## Places and histories -/

/-- The key is one of the queue's list and its processing lists, if the name of the queue is plain. -/
def AtHome (key queue : String) : Prop :=
  Plain queue → key = queueKey queue ∨ ∃ workerId, key = processingKey queue workerId

/-- A list of this key may get the id: its record is there, and the key is that of its queue, if the name is plain. -/
def Belongs (key : String) (id : Uuid) (s : Store) : Prop :=
  ∃ queue, HasQueue s id queue ∧ (Plain queue → key = queueKey queue)

/-- For each client, the id that its call has made and has not written a record for. -/
abbrev Unwritten := Nat → Option Uuid

/-- A client writes the record. -/
def Unwritten.sent (i : Nat) (c : Command) (h : Unwritten) : Unwritten :=
  match c with
  | .hset id _ => if h i = some id then Function.update h i none else h
  | _ => h

/-- How the history follows the calls. -/
def placeRecorder : Recorder Nat Call Command Command.Reply (Outcome Answer) Store Unwritten where
  start i call h := Function.update h i call.newId
  exec i _ c _ _ h := h.sent i c
  finish i _ _ h := Function.update h i none
  crash i h := Function.update h i none

abbrev PlacePool := Observed Nat Call Command Command.Reply (Outcome Answer) Store Unwritten
abbrev PlaceWorld := World Store Unwritten

/-- The world after a command of client `i`. -/
def PlaceWorld.after (w : PlaceWorld) (i : Nat) (c : Command) : PlaceWorld :=
  { store := (c.exec w.store).2, history := w.history.sent i c }

/-! ## The discipline -/

/-- Every entry is at home, and what is unwritten has no record and is of one client. -/
structure PlaceInv (w : PlaceWorld) : Prop where
  placed : ∀ key id, (key, id) ∈ w.store.entries → ∃ job, w.store.jobs id = some job ∧ AtHome key job.queue
  unwritten : ∀ i id, w.history i = some id → w.store.jobs id = none
  distinct : ∀ i j id, i ≠ j → w.history i = some id → w.history j ≠ some id

/-- What client `i` relies on: the others keep the queue of every record, and the id that `i` has made. -/
structure PlaceRely (i : Nat) (w w' : PlaceWorld) : Prop where
  later : Later w.store w'.store
  history : w'.history i = w.history i

/-- What a client promises. -/
def PlacePromise (i : Nat) (call : Call) (c : Command) (w : PlaceWorld) : Prop :=
  match c with
  | .hset id v => HasQueue w.store id v.queue ∨ w.history i = some id
  | .rpush key id | .lpush key id => Belongs key id w.store
  | .lmove source destination => ∃ now queue workerId leaseSeconds batchSize,
      call = .leaseJobsBatch now queue workerId leaseSeconds batchSize ∧ source = queueKey queue ∧
        destination = processingKey queue workerId
  | _ => True

/-- The discipline of the calls. -/
def placeDiscipline : Discipline Nat Call Command (Outcome Answer) Store Unwritten where
  inv := PlaceInv
  idle i w := w.history i = none
  rely := PlaceRely
  promise := PlacePromise
  result _ _ _ _ := True

theorem PlaceRely.refl (i : Nat) (w : PlaceWorld) : PlaceRely i w w := ⟨Later.refl _, rfl⟩

theorem PlaceRely.trans {i : Nat} {w w' w'' : PlaceWorld} (h : PlaceRely i w w') (h' : PlaceRely i w' w'') :
    PlaceRely i w w'' := ⟨h.later.trans h'.later, h'.history.trans h.history⟩

theorem Belongs.later {key : String} {id : Uuid} {s s' : Store} (h : Belongs key id s) (hl : Later s s') :
    Belongs key id s' := by
  obtain ⟨queue, hq, hkey⟩ := h
  exact ⟨queue, hl id queue hq, hkey⟩

/-- The list of a queue has only ids that belong there. -/
theorem PlaceInv.belongs {w : PlaceWorld} (h : PlaceInv w) {queue : String} {id : Uuid}
    (hmem : (queueKey queue, id) ∈ w.store.entries) : Belongs (queueKey queue) id w.store := by
  obtain ⟨job, hjob, hhome⟩ := h.placed _ id hmem
  refine ⟨job.queue, ⟨job, hjob, rfl⟩, fun hplain => ?_⟩
  rcases hhome hplain with hkey | ⟨workerId, hkey⟩
  · exact hkey
  · have hproc := isProcessing_processingKey job.queue workerId
    rw [← hkey, isProcessing_queueKey] at hproc
    cases hproc

/-- A processing list has only ids that belong where the reaper takes them. -/
theorem PlaceInv.reaped {w : PlaceWorld} (h : PlaceInv w) {key target : String} {id : Uuid}
    (hproc : isProcessing key = true) (htarget : reapTarget key = some target) (hmem : (key, id) ∈ w.store.entries) :
    Belongs target id w.store := by
  obtain ⟨job, hjob, hhome⟩ := h.placed _ id hmem
  refine ⟨job.queue, ⟨job, hjob, rfl⟩, fun hplain => ?_⟩
  rcases hhome hplain with rfl | ⟨workerId, rfl⟩
  · rw [isProcessing_queueKey] at hproc
    cases hproc
  · rw [reapTarget_processingKey workerId hplain] at htarget
    exact (Option.some.inj htarget).symm

/-! ### What a command does -/

section Commands

variable {i j : Nat} {call : Call} {c : Command} {w : PlaceWorld}

theorem sent_of_ne {h : Unwritten} (hj : j ≠ i) : h.sent i c j = h j := by
  unfold Unwritten.sent
  split
  · split
    · exact Function.update_of_ne hj ..
    · rfl
  · rfl

/-- Nothing becomes unwritten by a command. -/
theorem sent_some {h : Unwritten} {id : Uuid} (hid : h.sent i c j = some id) : h j = some id := by
  unfold Unwritten.sent at hid
  split at hid
  · split at hid
    · by_cases hj : j = i
      · rw [hj, Function.update_self] at hid
        cases hid
      · rwa [Function.update_of_ne hj] at hid
    · exact hid
  · exact hid

/-- A record that is written belongs to the queue it had, or there was none. -/
theorem PlacePromise.later (hinv : PlaceInv w) (h : PlacePromise i call c w) : Later w.store (w.after i c).store := by
  intro id queue hq
  by_cases hset : ∃ v, c = .hset id v
  · obtain ⟨v, rfl⟩ := hset
    refine ⟨v, Command.exec_hset, ?_⟩
    obtain ⟨job, hjob, rfl⟩ := hq
    rcases h with ⟨job', hjob', hqueue⟩ | hnew
    · rw [hjob] at hjob'
      cases hjob'
      exact hqueue.symm
    · rw [hinv.unwritten i id hnew] at hjob
      cases hjob
  · obtain ⟨job, hjob, hqueue⟩ := hq
    exact ⟨job, (Command.exec_jobs (fun v he => hset ⟨v, he⟩)).trans hjob, hqueue⟩

/-- An id that a call has made stays without a record until that call writes it. -/
theorem PlacePromise.unwritten (hinv : PlaceInv w) (h : PlacePromise i call c w) {id : Uuid}
    (hid : (w.after i c).history j = some id) : (w.after i c).store.jobs id = none := by
  have hold : w.history j = some id := sent_some hid
  have hnone := hinv.unwritten j id hold
  by_cases hset : ∃ v, c = .hset id v
  · obtain ⟨v, rfl⟩ := hset
    rcases h with ⟨job, hjob, _⟩ | hnew
    · rw [hnone] at hjob
      cases hjob
    · -- the client that writes it is the one that has made it, and the history forgets the id
      by_cases hj : j = i
      · subst hj
        have hgone : (w.after j (.hset id v)).history j = none := by
          simp [PlaceWorld.after, Unwritten.sent, hnew]
        rw [hgone] at hid
        cases hid
      · exact absurd hnew (hinv.distinct j i id hj hold)
  · exact (Command.exec_jobs (fun v he => hset ⟨v, he⟩)).trans hnone

/-- An entry that a command makes is at home. -/
theorem PlacePromise.placed (hinv : PlaceInv w) (h : PlacePromise i call c w) {key : String} {id : Uuid}
    (hmem : (key, id) ∈ (w.after i c).store.entries) :
    ∃ queue, HasQueue w.store id queue ∧ AtHome key queue := by
  have hold (hin : (key, id) ∈ w.store.entries) : ∃ queue, HasQueue w.store id queue ∧ AtHome key queue := by
    obtain ⟨job, hjob, hhome⟩ := hinv.placed key id hin
    exact ⟨job.queue, ⟨job, hjob, rfl⟩, hhome⟩
  have hpushed {key' : String} {id' : Uuid} (hb : Belongs key' id' w.store) (heq : (key, id) = (key', id')) :
      ∃ queue, HasQueue w.store id queue ∧ AtHome key queue := by
    cases heq
    obtain ⟨queue, hq, hkey⟩ := hb
    exact ⟨queue, hq, fun hplain => Or.inl (hkey hplain)⟩
  cases c with
  | rpush key' id' =>
      rcases List.mem_append.mp hmem with hin | hin
      · exact hold hin
      · exact hpushed h (List.mem_singleton.mp hin)
  | lpush key' id' =>
      rcases List.mem_cons.mp hmem with hin | hin
      · exact hpushed h hin
      · exact hold hin
  | lrem key' id' => exact hold (List.mem_of_mem_erase hmem)
  | lmove source destination =>
      obtain ⟨_, queue, workerId, _, _, _, rfl, rfl⟩ := h
      rcases exec_lmove (s := w.store) (queueKey queue) (processingKey queue workerId) with heq | ⟨id', hid', heq⟩
      · rw [PlaceWorld.after, heq] at hmem
        exact hold hmem
      · rw [PlaceWorld.after, heq] at hmem
        rcases List.mem_append.mp hmem with hin | hin
        · exact hold (List.mem_of_mem_erase hin)
        · cases List.mem_singleton.mp hin
          obtain ⟨queue', hq, hkey⟩ := hinv.belongs hid'
          exact ⟨queue', hq, fun hplain => Or.inr ⟨workerId, by rw [queueKey_inj (hkey hplain)]⟩⟩
  | hsetnxIdempotency key' id' => exact hold ((exec_hsetnx (s := w.store) key' id').2 ▸ hmem)
  | hset _ _ | hgetIdempotency _ | hget _ | lrange _ | keysProcessing | incr _ => exact hold hmem

/-- **A command that is promised keeps the invariant**, and is one that the other clients rely on. -/
theorem PlacePromise.owes (hinv : PlaceInv w) (h : PlacePromise i call c w) :
    placeDiscipline.Owes i w (w.after i c) := by
  refine ⟨⟨?_, fun j id hid => h.unwritten hinv hid, ?_⟩, fun j hj => ⟨h.later hinv, sent_of_ne hj⟩⟩
  · intro key id hmem
    obtain ⟨queue, hq, hhome⟩ := h.placed hinv hmem
    obtain ⟨job, hjob, rfl⟩ := h.later hinv id queue hq
    exact ⟨job, hjob, hhome⟩
  · intro j j' id hne hj hj'
    exact hinv.distinct j j' id hne (sent_some hj) (sent_some hj')

end Commands

/-! ## The programs -/

/-- The program keeps its promises. -/
abbrev KeepsPlaces (i : Nat) (call : Call) (p : Cmds (Outcome Answer)) (w : PlaceWorld) : Prop :=
  placeDiscipline.Keeps placeRecorder server i call p w

section Rules

variable {i : Nat} {call : Call} {id : Uuid} {w w' : PlaceWorld}

theorem keeps_done {a : Outcome Answer} : KeepsPlaces i call (.done a) w := fun _ _ _ => trivial

theorem KeepsPlaces.later {p : Cmds (Outcome Answer)} (h : KeepsPlaces i call p w) (hrely : PlaceRely i w w') :
    KeepsPlaces i call p w' :=
  Discipline.Keeps.later (fun _ _ _ => PlaceRely.trans) h hrely

/-- A command, with what it promises when it is sent and how the program goes on from there. -/
theorem keeps_call {c : Command} {k : c.Reply → Cmds (Outcome Answer)}
    (h : ∀ w₁, PlaceRely i w w₁ → PlaceInv w₁ → PlacePromise i call c w₁ ∧
      (PlaceInv (w₁.after i c) → Later w₁.store (w₁.after i c).store →
        KeepsPlaces i call (k (c.exec w₁.store).1) (w₁.after i c))) :
    KeepsPlaces i call (.call c k) w := by
  intro w₁ hrely hinv
  obtain ⟨hpromise, hk⟩ := h w₁ hrely hinv
  refine ⟨hpromise, fun r σ' hans hinv' => ?_⟩
  obtain ⟨rfl, rfl⟩ := Prod.mk.inj (Option.some.inj hans)
  exact hk hinv' (hpromise.later hinv)

/-- A command that writes no record of the client's own, and whose answer does not matter. -/
theorem keeps_quiet {c : Command} {k : c.Reply → Cmds (Outcome Answer)}
    (hpromise : ∀ w₁, PlaceRely i w w₁ → PlaceInv w₁ → PlacePromise i call c w₁)
    (hown : ∀ w₁, PlaceRely i w w₁ → PlaceInv w₁ → (w₁.after i c).history i = w₁.history i)
    (hk : ∀ r, KeepsPlaces i call (k r) w) : KeepsPlaces i call (.call c k) w :=
  keeps_call fun w₁ hrely hinv => ⟨hpromise w₁ hrely hinv, fun _ hlater =>
    (hk _).later (hrely.trans ⟨hlater, hown w₁ hrely hinv⟩)⟩

/-- The record of a job that is there. -/
theorem keeps_hset {v : Job} {k : Unit → Cmds (Outcome Answer)} (hq : HasQueue w.store id v.queue)
    (hk : KeepsPlaces i call (k ()) w) : KeepsPlaces i call (.call (.hset id v) k) w := by
  refine keeps_quiet (fun w₁ hrely _ => Or.inl (hrely.later id _ hq)) (fun w₁ hrely hinv => ?_) (fun _ => hk)
  obtain ⟨job, hjob, _⟩ := hrely.later id _ hq
  have hnew : w₁.history i ≠ some id := by
    intro hnew
    rw [hinv.unwritten i id hnew] at hjob
    cases hjob
  simp [PlaceWorld.after, Unwritten.sent, hnew]

/-- The record of a new job. -/
theorem keeps_create {v : Job} {k : Unit → Cmds (Outcome Answer)} (hnew : w.history i = some id)
    (hk : ∀ w₁, HasQueue w₁.store id v.queue → KeepsPlaces i call (k ()) w₁) :
    KeepsPlaces i call (.call (.hset id v) k) w :=
  keeps_call fun _ hrely _ => ⟨Or.inr (hrely.history.trans hnew), fun _ _ => hk _ ⟨v, Command.exec_hset, rfl⟩⟩

theorem keeps_rpush {key : String} {k : Unit → Cmds (Outcome Answer)} (hb : Belongs key id w.store)
    (hk : KeepsPlaces i call (k ()) w) : KeepsPlaces i call (.call (.rpush key id) k) w :=
  keeps_quiet (fun _ hrely _ => hb.later hrely.later) (fun _ _ _ => rfl) (fun _ => hk)

theorem keeps_lpush {key : String} {k : Unit → Cmds (Outcome Answer)} (hb : Belongs key id w.store)
    (hk : KeepsPlaces i call (k ()) w) : KeepsPlaces i call (.call (.lpush key id) k) w :=
  keeps_quiet (fun _ hrely _ => hb.later hrely.later) (fun _ _ _ => rfl) (fun _ => hk)

theorem keeps_lrem {key : String} {k : Unit → Cmds (Outcome Answer)} (hk : KeepsPlaces i call (k ()) w) :
    KeepsPlaces i call (.call (.lrem key id) k) w :=
  keeps_quiet (fun _ _ _ => trivial) (fun _ _ _ => rfl) (fun _ => hk)

/-- What is read is what is there. -/
theorem keeps_hget {k : Option Job → Cmds (Outcome Answer)}
    (hk : ∀ w₁, PlaceRely i w w₁ → PlaceInv w₁ → KeepsPlaces i call (k (w₁.store.jobs id)) w₁) :
    KeepsPlaces i call (.call (.hget id) k) w :=
  keeps_call fun w₁ hrely hinv => ⟨trivial, fun _ _ => hk w₁ hrely hinv⟩

/-- The queue of a record that has just been read. -/
theorem belongs_of_queue {queue : String} {s : Store} (hq : HasQueue s id queue) : Belongs (queueKey queue) id s :=
  ⟨queue, hq, fun _ => rfl⟩

theorem keeps_withLease {jobId : Uuid} {workerId : String} {missing refused : Outcome Answer}
    {act : Job → Cmds (Outcome Answer)}
    (hact : ∀ w₁ job, PlaceRely i w w₁ → HasQueue w₁.store jobId job.queue → KeepsPlaces i call (act job) w₁) :
    KeepsPlaces i call (withLease jobId workerId missing refused act) w := by
  refine keeps_hget fun w₁ hrely _ => ?_
  cases hjob : w₁.store.jobs jobId with
  | none => exact keeps_done
  | some job =>
      show KeepsPlaces i call (if _ then _ else _) w₁
      split
      · exact hact w₁ job hrely ⟨job, hjob, rfl⟩
      · exact keeps_done

end Rules

section Programs

variable {i : Nat} {w : PlaceWorld}

/-- What a lease pops belongs to the list it popped it from. -/
theorem leaseEach_keepsPlaces {now lockExpiresAt : DateTime} {queue workerId : String} {leaseSeconds batchSize : Int} :
    ∀ (n : Nat) (leased : List Job) (w : PlaceWorld),
      KeepsPlaces i (.leaseJobsBatch now queue workerId leaseSeconds batchSize)
        (leaseEach queue workerId now lockExpiresAt n leased) w
  | 0, _, _ => keeps_done
  | n + 1, leased, w => by
      unfold leaseEach
      refine keeps_call fun w₁ _ hinv => ⟨⟨now, queue, workerId, leaseSeconds, batchSize, rfl, rfl, rfl⟩, ?_⟩
      intro _ hlater
      rcases exec_lmove (s := w₁.store) (queueKey queue) (processingKey queue workerId) with heq | ⟨id, hid, heq⟩
      · rw [show ((Command.lmove (queueKey queue) (processingKey queue workerId)).exec w₁.store).1 = none from
          congrArg Prod.fst heq]
        exact keeps_done
      rw [show ((Command.lmove (queueKey queue) (processingKey queue workerId)).exec w₁.store).1 = some id from
          congrArg Prod.fst heq]
      have hbelongs := (hinv.belongs hid).later hlater
      refine keeps_hget fun w₂ hrely _ => ?_
      have hnext : KeepsPlaces i (.leaseJobsBatch now queue workerId leaseSeconds batchSize)
          (leaseEach queue workerId now lockExpiresAt n leased) w₂ := leaseEach_keepsPlaces n leased w₂
      cases hjob : w₂.store.jobs id with
      | none => exact hnext
      | some job =>
          show KeepsPlaces i _ (if now < job.runAt then _ else _) w₂
          split
          · exact keeps_lpush (hbelongs.later hrely.later) (keeps_lrem hnext)
          split
          · exact keeps_hset ⟨job, hjob, rfl⟩ (keeps_lrem hnext)
          · exact keeps_hset ⟨job, hjob, rfl⟩ (leaseEach_keepsPlaces n _ w₂)

/-- The inner loop of the reaper, over members that belong where it pushes them. -/
theorem reapList_keepsPlaces {call : Call} {now : DateTime} {procKey target : String} {f : Nat → Cmds (Outcome Answer)}
    (hf : ∀ n w, KeepsPlaces i call (f n) w) :
    ∀ (jids : List Uuid) (reaped : Nat) (w : PlaceWorld), (∀ jid ∈ jids, Belongs target jid w.store) →
      KeepsPlaces i call (reapList now procKey target jids reaped >>= f) w
  | [], reaped, w, _ => hf reaped w
  | jid :: rest, reaped, w, hjids => by
      unfold reapList
      refine keeps_hget fun w₁ hrely _ => ?_
      have hall : ∀ jid' ∈ jid :: rest, Belongs target jid' w₁.store :=
        fun jid' hmem => (hjids jid' hmem).later hrely.later
      have hnext (n : Nat) : KeepsPlaces i call (reapList now procKey target rest n >>= f) w₁ :=
        reapList_keepsPlaces hf rest n w₁ fun jid' hmem => hall jid' (List.mem_cons_of_mem _ hmem)
      cases hjob : w₁.store.jobs jid with
      | none => exact hnext reaped
      | some job =>
          show KeepsPlaces i call ((if _ then _ else _) >>= f) w₁
          split
          · exact keeps_hset ⟨job, hjob, rfl⟩ (keeps_lrem (keeps_rpush (hall jid List.mem_cons_self) (hnext _)))
          · exact hnext reaped

theorem reapKeys_keepsPlaces {call : Call} {now : DateTime} :
    ∀ (keys : List String) (reaped : Nat) (w : PlaceWorld), (∀ key ∈ keys, isProcessing key = true) →
      KeepsPlaces i call (reapKeys now keys reaped) w
  | [], _, _, _ => keeps_done
  | procKey :: rest, reaped, w, hkeys => by
      have hrest : ∀ key ∈ rest, isProcessing key = true := fun key hmem => hkeys key (List.mem_cons_of_mem _ hmem)
      unfold reapKeys
      split
      · exact reapKeys_keepsPlaces rest reaped w hrest
      · rename_i target htarget
        refine keeps_call fun w₁ _ hinv => ⟨trivial, fun _ _ => ?_⟩
        refine reapList_keepsPlaces (fun n w => reapKeys_keepsPlaces rest n w hrest) _ reaped _ fun jid hmem => ?_
        exact hinv.reaped (hkeys procKey List.mem_cons_self) htarget (mem_list.mp hmem)

theorem startAttemptsBatch_keepsPlaces {call : Call} {workerId : String} :
    ∀ (jobs : List (Uuid × Uuid)) (results : List (Uuid × Uuid × Int)) (w : PlaceWorld),
      KeepsPlaces i call (startAttemptsBatch workerId jobs results) w
  | [], _, _ => keeps_done
  | (jobId, attemptId) :: rest, results, w => by
      unfold startAttemptsBatch
      refine keeps_withLease fun w₁ _ _ _ => ?_
      exact keeps_quiet (fun _ _ _ => trivial) (fun _ _ _ => rfl)
        fun _ => startAttemptsBatch_keepsPlaces rest _ w₁

theorem storeJob_keepsPlaces {jobId : Uuid} {now : DateTime} {job : NewJob} {call : Call}
    (hnew : w.history i = some jobId) : KeepsPlaces i call (storeJob now jobId job) w :=
  keeps_create hnew fun _ hq => keeps_rpush (belongs_of_queue hq) keeps_done

theorem enqueue_keepsPlaces {jobId : Uuid} {now : DateTime} {job : NewJob} {call : Call}
    (hnew : w.history i = some jobId) : KeepsPlaces i call (enqueue jobId now job) w := by
  unfold enqueue
  split
  · exact storeJob_keepsPlaces hnew
  · refine keeps_quiet (fun _ _ _ => trivial) (fun _ _ _ => rfl) ?_
    rintro (_ | _)
    · refine keeps_quiet (fun _ _ _ => trivial) (fun _ _ _ => rfl) ?_
      rintro (_ | existing) <;> exact keeps_done
    · exact storeJob_keepsPlaces hnew

theorem markSucceeded_keepsPlaces {nextId jobId : Uuid} {now : DateTime} {workerId : String} {call : Call}
    (hnew : w.history i = some nextId) : KeepsPlaces i call (markSucceeded nextId now jobId workerId) w := by
  refine keeps_withLease fun w₁ job hrely hq => ?_
  split
  · exact keeps_done
  rename_i next hnext
  refine keeps_hset hq (keeps_lrem ?_)
  cases next with
  | none => exact keeps_done
  | some next =>
      refine keeps_create (hrely.history.trans hnew) fun _ hq' => ?_
      exact keeps_rpush (belongs_of_queue hq') keeps_done

theorem cancelJob_keepsPlaces {now : DateTime} {jobId : Uuid} {workerId : Option String} {call : Call} :
    KeepsPlaces i call (cancelJob now jobId workerId) w := by
  refine keeps_hget fun w₁ _ _ => ?_
  cases hjob : w₁.store.jobs jobId with
  | none => exact keeps_done
  | some job =>
      have hlast : KeepsPlaces i call (cancelRecord now jobId job) w₁ := keeps_hset ⟨job, hjob, rfl⟩ keeps_done
      show KeepsPlaces i call (cancelFound now jobId workerId job) w₁
      unfold cancelFound
      split
      · exact keeps_done
      split
      · exact keeps_lrem hlast
      · exact hlast

/-- **Every call keeps its promises from its start**, if the id that it makes is unwritten. -/
theorem program_keepsPlaces (call : Call) (hnew : w.history i = call.newId) :
    KeepsPlaces i call call.program w := by
  cases call with
  | enqueue jobId now job => exact enqueue_keepsPlaces hnew
  | leaseJobsBatch now queue workerId leaseSeconds batchSize =>
      show KeepsPlaces i _ (leaseJobsBatch now queue workerId leaseSeconds batchSize) w
      unfold leaseJobsBatch
      split
      · exact keeps_done
      · exact leaseEach_keepsPlaces _ _ w
  | reapExpiredLocks order now =>
      refine keeps_call fun w₁ _ _ => ⟨trivial, fun _ _ => reapKeys_keepsPlaces _ 0 _ fun key hmem => ?_⟩
      have hmem' : key ∈ ((w₁.store.entries.map Prod.fst).filter isProcessing).dedup := (order.perm _).mem_iff.mp hmem
      exact (List.mem_filter.mp (List.mem_dedup.mp hmem')).2
  | startAttemptsBatch workerId jobs => exact startAttemptsBatch_keepsPlaces jobs [] w
  | markSucceeded nextId now jobId workerId => exact markSucceeded_keepsPlaces hnew
  | rescheduleForRetry now jobId workerId nextRunAt =>
      refine keeps_withLease fun w₁ job _ hq => ?_
      exact keeps_hset hq (keeps_lrem (keeps_rpush (belongs_of_queue hq) keeps_done))
  | markDlq dlqAt now jobId workerId reasonCode =>
      exact keeps_withLease fun w₁ job _ hq => keeps_hset hq (keeps_lrem keeps_done)
  | extendLease now jobId workerId leaseSeconds =>
      refine keeps_withLease fun w₁ job _ hq => ?_
      split
      · exact keeps_done
      · exact keeps_hset hq keeps_done
  | cancelJob now jobId workerId => exact cancelJob_keepsPlaces

end Programs

/-! ## The runs -/

/-- The id that a call makes has no record, and no other call that is running has made it. -/
def NewPlaces (o : PlacePool) (move : Move Nat Call) (_ : PlacePool) : Prop :=
  ∀ i call id, move = .start i call → call.newId = some id →
    o.pool.store.jobs id = none ∧ ∀ j, o.history j ≠ some id

/-- The clients, their server and the history. -/
def placeSystem : System PlacePool (Move Nat Call) :=
  (placeRecorder.system server Call.program (fun s => s = .empty) (fun _ _ => none)).restrict NewPlaces

/-- A client's part of the history after it was set. -/
theorem update_some {h : Unwritten} {i j : Nat} {newId : Option Uuid} {id : Uuid}
    (hj : Function.update h i newId j = some id) : j = i ∧ newId = some id ∨ j ≠ i ∧ h j = some id := by
  by_cases hji : j = i
  · rw [hji, Function.update_self] at hj
    exact Or.inl ⟨hji, hj⟩
  · rw [Function.update_of_ne hji] at hj
    exact Or.inr ⟨hji, hj⟩

/-- A client sets its part to an id that is new, or to none. -/
theorem PlaceInv.set {w : PlaceWorld} (h : PlaceInv w) (i : Nat) {newId : Option Uuid}
    (hnew : ∀ id, newId = some id → w.store.jobs id = none ∧ ∀ j, w.history j ≠ some id) :
    PlaceInv { store := w.store, history := Function.update w.history i newId } := by
  refine ⟨h.placed, fun j id hj => ?_, fun j j' id hne hj hj' => ?_⟩
  · rcases update_some hj with ⟨_, hid⟩ | ⟨_, hold⟩
    · exact (hnew id hid).1
    · exact h.unwritten j id hold
  · rcases update_some hj with ⟨hji, hid⟩ | ⟨_, hold⟩ <;> rcases update_some hj' with ⟨hji', hid'⟩ | ⟨_, hold'⟩
    · exact hne (hji.trans hji'.symm)
    · exact (hnew id hid).2 j' hold'
    · exact (hnew id hid').2 j hold
    · exact h.distinct j j' id hne hold hold'

/-- A client is gone. -/
theorem PlaceInv.forget {w : PlaceWorld} (h : PlaceInv w) (i : Nat) :
    PlaceInv { store := w.store, history := Function.update w.history i none } :=
  h.set i fun id hid => by cases hid

/-- **The calls keep the discipline.** -/
theorem places_obeyed : placeDiscipline.Obeyed placeRecorder server Call.program placeSystem where
  next h := h.1
  refl := PlaceRely.refl
  trans _ _ _ _ := PlaceRely.trans
  idle hidle hrely := hrely.history.trans hidle
  init := by
    rintro o ⟨hstore, hclients, hhist⟩
    have hw : o.world = { store := .empty, history := fun _ => none } := by
      rw [← hstore, ← show o.history = fun _ => none from hhist]
      rfl
    rw [hw]
    refine ⟨hclients, ⟨fun key id h => ?_, fun _ _ h => (by cases h), fun _ _ _ _ h => (by cases h)⟩, fun _ => rfl⟩
    cases h
  start := by
    intro o i call o' h hstep _
    refine ⟨⟨h.inv.set i fun id hid => hstep.2 i call id rfl hid, fun j hj => ⟨Later.refl _, ?_⟩⟩, ?_⟩
    · exact Function.update_of_ne hj ..
    · exact program_keepsPlaces call (Function.update_self ..)
  exec := by
    intro o i call c k r σ' o' h _ _ hexec hpromise
    obtain ⟨rfl, rfl⟩ := Prod.mk.inj (Option.some.inj hexec)
    exact PlacePromise.owes h.inv hpromise
  finish := by
    intro o i call a o' h _ _ _
    exact ⟨⟨h.inv.forget i, fun j hj => ⟨Later.refl _, Function.update_of_ne hj ..⟩⟩, Function.update_self ..⟩
  crash := by
    intro o i call p o' h _ _ _
    exact ⟨⟨h.inv.forget i, fun j hj => ⟨Later.refl _, Function.update_of_ne hj ..⟩⟩, Function.update_self ..⟩

/-- What is unwritten was made by a call that is running. -/
def Running (o : PlacePool) : Prop :=
  ∀ i id, o.history i = some id → ∃ call p, o.pool.client i = some (call, p) ∧ call.newId = some id

/-- The client that moves now runs this, and the history of the others is as it was. -/
theorem Running.put {o : PlacePool} (h : Running o) {i : Nat} {running : Option (Call × Cmds (Outcome Answer))}
    {σ : Store} {η : Unwritten} (hothers : ∀ j, j ≠ i → η j = o.history j)
    (hown : ∀ id, η i = some id → ∃ call p, running = some (call, p) ∧ call.newId = some id) :
    Running { pool := o.pool.put i running σ, history := η } := by
  intro j id hj
  by_cases hji : j = i
  · subst hji
    obtain ⟨call, p, hrun, hid⟩ := hown id hj
    exact ⟨call, p, Pool.put_self.trans hrun, hid⟩
  · obtain ⟨call, p, hclient, hid⟩ := h j id ((hothers j hji).symm.trans hj)
    exact ⟨call, p, (Pool.put_of_ne hji).trans hclient, hid⟩

theorem Running.next {o o' : PlacePool} {move : Move Nat Call} (h : Running o)
    (hstep : placeRecorder.next server Call.program o move = some o') : Running o' := by
  cases move with
  | start i call =>
      obtain ⟨_, rfl⟩ := Recorder.next_start hstep
      have hself : placeRecorder.start i call o.history i = call.newId := by simp [placeRecorder]
      exact h.put (fun j hji => Function.update_of_ne hji ..) fun id hid =>
        ⟨call, call.program, rfl, hself.symm.trans hid⟩
  | exec i =>
      obtain ⟨call, c, k, r, σ', hi, _, rfl⟩ := Recorder.next_exec hstep
      refine h.put (fun j hji => sent_of_ne hji) fun id hid => ⟨call, k r, rfl, ?_⟩
      obtain ⟨call', p, hclient, hid'⟩ := h i id (sent_some hid)
      rw [hi] at hclient
      cases hclient
      exact hid'
  | finish i =>
      obtain ⟨_, _, _, rfl⟩ := Recorder.next_finish hstep
      refine h.put (fun j hji => Function.update_of_ne hji ..) fun id hid => ?_
      rw [show placeRecorder.finish i _ _ o.history i = none from Function.update_self ..] at hid
      cases hid
  | crash i =>
      obtain ⟨_, _, _, rfl⟩ := Recorder.next_crash hstep
      refine h.put (fun j hji => Function.update_of_ne hji ..) fun id hid => ?_
      rw [show placeRecorder.crash i o.history i = none from Function.update_self ..] at hid
      cases hid

/-- A step of the clients is a step of the clients with their history. -/
theorem observe_step {o : PlacePool} {s' : RedisPool} {move : Move Nat Call} (hrun : Running o)
    (hstep : redisSystem.step o.pool move s') : ∃ o', placeSystem.step o move o' ∧ o'.pool = s' ∧ Running o' := by
  obtain ⟨hnext, hnew⟩ := hstep
  have hstep' : placeRecorder.next server Call.program o move =
      some { pool := s', history := placeRecorder.record server o move } :=
    Option.map_eq_some_iff.mpr ⟨s', hnext, rfl⟩
  refine ⟨_, ⟨hstep', ?_⟩, rfl, hrun.next hstep'⟩
  intro i call id hmove hid
  obtain ⟨hnone, _, hothers⟩ := hnew i call id hmove hid
  refine ⟨hnone, fun j hj => ?_⟩
  obtain ⟨call', p, hclient, hid'⟩ := hrun j id hj
  exact hothers j call' p hclient hid'

/-- A reachable pool has a history. -/
theorem observed {s : RedisPool} (hs : redisSystem.Reachable s) :
    ∃ o, placeSystem.Reachable o ∧ o.pool = s ∧ Running o := by
  refine hs.invariant (I := fun s => ∃ o, placeSystem.Reachable o ∧ o.pool = s ∧ Running o) ?_ ?_
  · rintro s ⟨hstore, hclients⟩
    exact ⟨{ pool := s, history := fun _ => none }, .start ⟨hstore, hclients, rfl⟩, rfl, fun _ _ h => by cases h⟩
  · rintro s move s' _ ⟨o, ho, rfl, hrun⟩ hstep
    obtain ⟨o', hstep', hpool, hrun'⟩ := observe_step hrun hstep
    exact ⟨o', ho.next hstep', hpool, hrun'⟩

/-! ### What holds in every run -/

section Reachable

variable {s s' : RedisPool}

/-- Every entry is at home. -/
theorem reachable_placed (hs : redisSystem.Reachable s) {key : String} {id : Uuid}
    (hmem : (key, id) ∈ s.store.entries) : ∃ job, s.store.jobs id = some job ∧ AtHome key job.queue := by
  obtain ⟨o, ho, rfl, _⟩ := observed hs
  exact (places_obeyed.holds ho).inv.placed key id hmem

/-- A client that is about to move an id from a list is a lease of the queue whose list it is. -/
theorem reachable_lmove (hs : redisSystem.Reachable s) {i : Nat} {call : Call} {source destination : String}
    {k : Option Uuid → Cmds (Outcome Answer)} (hi : s.client i = some (call, .call (.lmove source destination) k)) :
    ∃ now queue workerId leaseSeconds batchSize,
      call = .leaseJobsBatch now queue workerId leaseSeconds batchSize ∧ source = queueKey queue := by
  obtain ⟨o, ho, rfl, _⟩ := observed hs
  have hpromise : PlacePromise i call (.lmove source destination) o.world :=
    places_obeyed.promise_of (places_obeyed.holds ho) hi
  obtain ⟨now, queue, workerId, leaseSeconds, batchSize, hcall, hsource, _⟩ := hpromise
  exact ⟨now, queue, workerId, leaseSeconds, batchSize, hcall, hsource⟩

/-- A step keeps the queue of every record. -/
theorem step_later {move : Move Nat Call} (hs : redisSystem.Reachable s) (hstep : redisSystem.step s move s') :
    Later s.store s'.store := by
  obtain ⟨o, ho, rfl, _⟩ := observed hs
  have hholds := places_obeyed.holds ho
  cases move with
  | start i call =>
      obtain ⟨_, rfl⟩ := Pool.next_start hstep.1
      exact Later.refl _
  | exec i =>
      obtain ⟨call, c, k, hi, rfl⟩ := next_exec hstep.1
      have hpromise : PlacePromise i call c o.world := places_obeyed.promise_of hholds hi
      exact hpromise.later hholds.inv
  | finish i =>
      obtain ⟨_, _, _, rfl⟩ := Pool.next_finish hstep.1
      exact Later.refl _
  | crash i =>
      obtain ⟨_, rfl⟩ := Pool.next_crash hstep.1
      exact Later.refl _

/-- So does a run. -/
theorem run_hasQueue {moves : List (Move Nat Call)} {id : Uuid} {queue : String} (hs : redisSystem.Reachable s)
    (hrun : redisSystem.Run s moves s') (hq : HasQueue s.store id queue) : HasQueue s'.store id queue :=
  hrun.keeps (I := fun s => HasQueue s.store id queue)
    (fun _ _ _ hs hq hstep => step_later hs hstep id queue hq) hs hq

end Reachable

/-! ## Calls without concurrent clients -/

section Alone

variable {s : RedisPool} {i : Nat} {call : Call}

theorem put_put {running running' : Option (Call × Cmds (Outcome Answer))} {σ σ' : Store} :
    (s.put i running σ).put i running' σ' = s.put i running' σ' := by
  simp [Pool.put]

/-- A client that has the server to itself runs to the end of its call. -/
theorem run_program (s : RedisPool) (i : Nat) (call : Call) (p : Cmds (Outcome Answer)) : ∀ σ : Store,
    ∃ moves, redisSystem.Run (s.put i (some (call, p)) σ) moves (s.put i none (p.alone Command.exec σ).2) := by
  induction p with
  | done a =>
      intro σ
      have hnext : (s.put i (some (call, .done a)) σ).next server Call.program (.finish i) =
          some (s.put i none σ) := by
        simp [Pool.next, put_put, server]
        rfl
      exact ⟨[.finish i], .cons ⟨hnext, fun _ _ _ h => by cases h⟩ (.nil _)⟩
  | call c k ih =>
      intro σ
      obtain ⟨moves, hrun⟩ := ih (c.exec σ).1 (c.exec σ).2
      have hnext : (s.put i (some (call, .call c k)) σ).next server Call.program (.exec i) =
          some (s.put i (some (call, k (c.exec σ).1)) (c.exec σ).2) := by
        simp [Pool.next, put_put, server]
        rfl
      exact ⟨.exec i :: moves, .cons ⟨hnext, fun _ _ _ h => by cases h⟩ hrun⟩

/-- A call of an idle client, with nobody else at the server, is a run. -/
theorem run_alone (hi : s.client i = none) (hnew : ∀ s', NewIds s (.start i call) s') :
    ∃ moves, redisSystem.Run s moves { s with store := (call.program.alone Command.exec s.store).2 } := by
  obtain ⟨moves, hrun⟩ := run_program s i call call.program s.store
  have hnext : s.next server Call.program (.start i call) = some (s.put i (some (call, call.program)) s.store) := by
    simp [Pool.next, hi]
  have hend : s.put i none (call.program.alone Command.exec s.store).2 =
      { s with store := (call.program.alone Command.exec s.store).2 } := by
    rw [Pool.put, ← hi, Function.update_eq_self]
  exact ⟨.start i call :: moves, hend ▸ .cons ⟨hnext, hnew _⟩ hrun⟩

end Alone

/-! ## The law -/

/-- A lease of the queue has handed this job of the queue to the worker. -/
structure LeasedFrom (s : Store) (q workerId : String) (id : Uuid) (job : Job) : Prop where
  stored : s.jobs id = some job
  queue : job.queue = q
  holds : holdsLease workerId job = true
  held : (processingKey q workerId, id) ∈ s.entries

/-- The clients after `reap_expired_locks` has had the server to itself. -/
def reaped (s : RedisPool) (order : KeyOrder) (now : DateTime) : RedisPool :=
  { s with store := ((reapExpiredLocks order now).alone Command.exec s.store).2 }

/-- The job is in the list of its queue and of no other; and whatever happens from here on, a lease that takes it is one
    of its queue. -/
structure BackHome (s : RedisPool) (queue : String) (id : Uuid) : Prop where
  returned : (queueKey queue, id) ∈ s.store.entries
  elsewhere : ∀ queue', (queueKey queue', id) ∈ s.store.entries → queue' = queue
  leased : ∀ moves s' i now queue' workerId leaseSeconds batchSize source destination k, redisSystem.Run s moves s' →
    s'.client i = some (.leaseJobsBatch now queue' workerId leaseSeconds batchSize,
      .call (.lmove source destination) k) →
    ((Command.lmove source destination).exec s'.store).1 = some id → queue' = queue

/-- Every job of the queue whose lease has expired is back home after a reaper that had the server to itself. -/
def Isolates (queue : String) : Prop :=
  ∀ s i order now workerId id job, redisSystem.Reachable s → s.client i = none →
    LeasedFrom s.store queue workerId id job → job.lockExpiresAt.any (fun exp => decide (exp ≤ now)) = true →
      BackHome (reaped s order now) queue id

section Law

variable {s : RedisPool} {id : Uuid} {queue : String}

/-- In a run, a job of a plain queue is in no other queue's list. -/
theorem queue_of_entry (hs : redisSystem.Reachable s) (hplain : Plain queue) (hq : HasQueue s.store id queue)
    {queue' : String} (hmem : (queueKey queue', id) ∈ s.store.entries) : queue' = queue := by
  obtain ⟨o, ho, rfl, _⟩ := observed hs
  obtain ⟨q, ⟨job, hjob, rfl⟩, hkey⟩ := (places_obeyed.holds ho).inv.belongs hmem
  obtain ⟨job', hjob', rfl⟩ := hq
  rw [show o.world.store.jobs id = o.pool.store.jobs id from rfl, hjob'] at hjob
  cases hjob
  exact queueKey_inj (hkey hplain)

/-- Every processing list that has the id leads a reaper to the plain queue of the job. -/
theorem reachable_homes (hs : redisSystem.Reachable s) (hplain : Plain queue) (hq : HasQueue s.store id queue) :
    Homes id queue s.store := by
  intro key hproc hmem
  obtain ⟨job, hjob, hhome⟩ := reachable_placed hs hmem
  obtain ⟨job', hjob', rfl⟩ := hq
  rw [hjob'] at hjob
  cases hjob
  rcases hhome hplain with rfl | ⟨workerId, rfl⟩
  · rw [isProcessing_queueKey] at hproc
    cases hproc
  · exact reapTarget_processingKey workerId hplain

/-- An id that `LMOVE` takes was in the source. -/
theorem mem_of_lmove {σ : Store} {source destination : String}
    (h : ((Command.lmove source destination).exec σ).1 = some id) : (source, id) ∈ σ.entries := by
  rcases exec_lmove (s := σ) source destination with heq | ⟨id', hmem, heq⟩
  · rw [show ((Command.lmove source destination).exec σ).1 = none from congrArg Prod.fst heq] at h
    cases h
  · rw [show ((Command.lmove source destination).exec σ).1 = some id' from congrArg Prod.fst heq] at h
    cases h
    exact hmem

/-- What the reaper brings home is there afterwards. -/
theorem reaped_home (order : KeyOrder) {now : DateTime} {key : String} (hhomes : Homes id queue s.store)
    (hdue : Due now id s.store) (hproc : isProcessing key = true) (hmem : (key, id) ∈ s.store.entries) :
    (queueKey queue, id) ∈ (reaped s order now).store.entries :=
  reap_home order hhomes hdue hproc hmem

theorem isolates_of_plain (hplain : Plain queue) : Isolates queue := by
  intro s i order now workerId id job hs hi hleased hexp
  have hq : HasQueue s.store id queue := ⟨job, hleased.stored, hleased.queue⟩
  have hreaper : ∀ s', NewIds s (.start i (.reapExpiredLocks order now)) s' := by
    rintro s' j call id' hmove hid
    cases hmove
    cases hid
  obtain ⟨reaping, hreap⟩ := run_alone hi hreaper
  have hs' : redisSystem.Reachable (reaped s order now) := hs.run hreap
  have hq' : HasQueue (reaped s order now).store id queue := run_hasQueue hs hreap hq
  refine ⟨?_, fun queue' hmem => queue_of_entry hs' hplain hq' hmem, ?_⟩
  · exact reaped_home order (reachable_homes hs hplain hq) ⟨job, hleased.stored, hexp⟩
      (isProcessing_processingKey queue workerId) hleased.held
  · intro moves s'' j now' queue' workerId' leaseSeconds batchSize source destination k hrun hj htaken
    have hs'' := hs'.run hrun
    obtain ⟨_, _, _, _, _, hcall, rfl⟩ := reachable_lmove hs'' hj
    cases hcall
    exact queue_of_entry hs'' hplain (run_hasQueue hs' hrun hq') (mem_of_lmove htaken)

/-! ### Names with a colon -/

/-- A processing list of a queue with a colon is one of a queue without. -/
theorem processingKey_colon (hcolon : ¬Plain queue) (workerId : String) :
    ∃ queue' workerId', Plain queue' ∧ queue' ≠ queue ∧
      processingKey queue workerId = processingKey queue' workerId' := by
  obtain ⟨front, back, hsplit, hfront⟩ := List.eq_append_cons_of_mem (not_not.mp hcolon)
  have hplain : Plain (String.ofList front) := by simpa [Plain] using hfront
  refine ⟨String.ofList front, String.ofList (back ++ ':' :: workerId.toList), hplain, ?_, ?_⟩
  · rintro rfl
    exact hcolon hplain
  · have hsep : ":".toList = [':'] := by decide
    refine String.toList_inj.mp ?_
    rw [processingKey_toList, processingKey_toList, hsplit, hsep]
    simp

/-- An email in a queue of this name. -/
def emailIn (queue : String) : NewJob := { email with queue := queue }

/-- It is enqueued, and a worker leases it. -/
def enqueuedPool (queue : String) : RedisPool :=
  { idlePool with store := ((enqueue 1 0 (emailIn queue)).alone Command.exec .empty).2 }

/-- When that lease ends. -/
def leaseEnd : DateTime := 30 * Chrono.nanosPerSecond + 5

def leasedPool (queue : String) : RedisPool :=
  { enqueuedPool queue with
    store := ((leaseJobsBatch 5 queue "w1" 30 1).alone Command.exec (enqueuedPool queue).store).2 }

theorem leasedPool_store (queue : String) :
    (leasedPool queue).store.jobs 1 = some (leasedJob 5 leaseEnd "w1" (jobEntity 0 1 (emailIn queue))) ∧
      (leasedPool queue).store.entries = [(processingKey queue "w1", 1)] := by
  have hlist : (enqueuedPool queue).store.list (queueKey queue) = [1] := by
    simp [enqueuedPool, enqueue, emailIn, email, storeJob, hset, rpush, Prog.alone, Command.exec, Store.list,
      Store.empty]
  have hlease : (leaseJobsBatch 5 queue "w1" 30 1).alone Command.exec (enqueuedPool queue).store =
      (leaseEach queue "w1" 5 leaseEnd 1 []).alone Command.exec (enqueuedPool queue).store := by
    have hend : Chrono.addSeconds 5 30 = some leaseEnd := by decide
    simp [leaseJobsBatch, hend]
  have hjob : (enqueuedPool queue).store.jobs 1 = some (jobEntity 0 1 (emailIn queue)) := rfl
  have hentries : (enqueuedPool queue).store.entries = [(queueKey queue, 1)] := rfl
  rw [leasedPool, hlease, leaseEach_succ_alone, hlist]
  simp only [List.head?_cons, hjob]
  have hdue : ¬5 < (jobEntity 0 1 (emailIn queue)).runAt := by simp [jobEntity, emailIn, email]
  have hintime : ¬missed 5 (jobEntity 0 1 (emailIn queue)) = true := by simp [missed, jobEntity, emailIn, email]
  rw [if_neg hdue, if_neg hintime]
  constructor
  · exact Command.exec_hset
  · show ((enqueuedPool queue).store.entries.erase (queueKey queue, 1)) ++ [(processingKey queue "w1", 1)] = _
    rw [hentries, List.erase_cons_head, List.nil_append]

theorem leasedPool_reachable (queue : String) : redisSystem.Reachable (leasedPool queue) := by
  have hidle : redisSystem.Reachable idlePool := .start ⟨rfl, fun _ => rfl⟩
  have henqueue : ∀ s', NewIds idlePool (.start 0 (.enqueue 1 0 (emailIn queue))) s' := by
    rintro s' i call id hmove hid
    cases hmove
    cases hid
    exact ⟨rfl, fun h => (by cases h), fun j call' p hj => (by cases hj)⟩
  obtain ⟨_, hrun⟩ := run_alone rfl henqueue
  have hlease : ∀ s', NewIds (enqueuedPool queue) (.start 0 (.leaseJobsBatch 5 queue "w1" 30 1)) s' := by
    rintro s' i call id hmove hid
    cases hmove
    cases hid
  obtain ⟨_, hrun'⟩ := run_alone rfl hlease
  exact (hidle.run hrun).run hrun'

/-- A reaper takes a job out of a queue with a colon. -/
theorem not_isolates (hcolon : ¬Plain queue) : ¬Isolates queue := by
  intro h
  obtain ⟨queue', workerId', hplain, hne, hkey⟩ := processingKey_colon hcolon "w1"
  obtain ⟨hjob, hentries⟩ := leasedPool_store queue
  have hheld : (processingKey queue "w1", 1) ∈ (leasedPool queue).store.entries := by
    rw [hentries]
    exact List.mem_singleton_self _
  have hback := h _ 0 ⟨id, fun _ => .refl _⟩ leaseEnd "w1" 1 _ (leasedPool_reachable queue) rfl
    ⟨hjob, rfl, rfl, hheld⟩ rfl
  -- every processing list that has the job leads to the other queue
  have hhomes : Homes 1 queue' (leasedPool queue).store := by
    intro key _ hmem
    rw [hentries, List.mem_singleton] at hmem
    have hproc : key = processingKey queue "w1" := congrArg Prod.fst hmem
    rw [hproc, hkey]
    exact reapTarget_processingKey workerId' hplain
  have hdue : Due leaseEnd 1 (leasedPool queue).store := ⟨_, hjob, rfl⟩
  have hthere := reaped_home ⟨id, fun _ => .refl _⟩ hhomes hdue (isProcessing_processingKey queue "w1") hheld
  exact hne (hback.elsewhere queue' hthere)

/-- **When a queue keeps its jobs.** In every run, with any workers and any other queues, a reaper that has the server
    to itself brings every leased job of the queue whose lease has expired to the list of this queue and to no other,
    and from there only leases of this queue take it, exactly if the name of the queue has no colon. -/
theorem isolates_iff (queue : String) : Isolates queue ↔ Plain queue :=
  ⟨fun h => by_contra fun hcolon => not_isolates hcolon h, isolates_of_plain⟩

end Law

/-- A job of `eu:emails` that is reaped is in the list of `eu`, whose workers can lease it. -/
theorem colon_queue_leaks : (leasedPool "eu:emails").store.entries = [(processingKey "eu:emails" "w1", 1)] ∧
    (reaped (leasedPool "eu:emails") ⟨id, fun _ => .refl _⟩ leaseEnd).store.entries = [("azums:queue:eu", 1)] ∧
    (∃ job, ((leaseJobsBatch leaseEnd "eu" "w2" 30 1).alone Command.exec
      (reaped (leasedPool "eu:emails") ⟨id, fun _ => .refl _⟩ leaseEnd).store).1 = .ok (.jobs [job]) ∧ job.id = 1) ∧
    ¬Isolates "eu:emails" := by
  refine ⟨rfl, rfl, ?_, not_isolates (by decide)⟩
  refine ⟨leasedJob leaseEnd (30 * Chrono.nanosPerSecond + leaseEnd) "w2"
    (requeuedJob leaseEnd (leasedJob 5 leaseEnd "w1" (jobEntity 0 1 (emailIn "eu:emails")))), ?_, rfl⟩
  rfl

end Azums.Redis
