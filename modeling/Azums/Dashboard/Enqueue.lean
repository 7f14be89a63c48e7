import Azums.Jobs.Retry
import Azums.Lib.Tickets
import Azums.Postgres.EnqueueGuard

/-!
# `Dashboard.Enqueue` — the enqueue endpoint under load

`enqueue_job` of the dashboard's API: a request is checked by the guard and then becomes a job. Any number of requests run
at the same time; their statements interleave, fail and lose their answers, and servers die.

`rate_law` is what the guard is worth then: under a queue and a minute no more jobs are inserted than the limit says, a
request is refused only with a count above the limit, every denial has its row in `ingest_decisions`, and no count is
lost.
-/

namespace Azums.Dashboard

open Azums.Postgres

/-! ## The endpoint -/

/-- The status codes that the endpoint answers with. -/
inductive StatusCode where
  | badRequest
  | payloadTooLarge
  | tooManyRequests
  | internalServerError
deriving DecidableEq

/-- What the endpoint answers: the id of the job, or a status and a text. -/
abbrev Response := Except (StatusCode × String) Uuid

/-- `EnqueueRequest`. -/
structure EnqueueRequest where
  queue : Option String
  jobType : String
  payloadJson : Value
  runAt : Option DateTime
  priority : Option Int
  maxAttempts : Option Int

/-- A request, and what the surroundings decide while it is served. -/
structure ApiCall where
  body : EnqueueRequest
  guard : GuardEnv
  runAtNow : DateTime
  enqueue : EnqueueEnv
  insert : Link

/-- `internal_err`. -/
def internalErr (e : String) : StatusCode × String := (.internalServerError, "internal error: " ++ e)

/-- `enqueue_err`. -/
def enqueueErr (msg : String) : StatusCode × String :=
  if contains msg "PAYLOAD_TOO_LARGE" then (.payloadTooLarge, msg)
  else if contains msg "ENQUEUE_RATE_EXCEEDED" then (.tooManyRequests, msg)
  else internalErr msg

namespace ApiCall

def queue (call : ApiCall) : String := call.body.queue.getD "default"

/-- The length of the payload in bytes. -/
def payloadBytes (call : ApiCall) : Nat := call.body.payloadJson.utf8ByteSize

/-- The counter that the request counts in. -/
def key (call : ApiCall) : RateKey := (call.queue, windowStart call.guard.now)

/-- The job that the request asks for. -/
def job (call : ApiCall) (maxAttempts : Int) : NewJob :=
  { queue := call.queue
    jobType := call.body.jobType
    payloadJson := call.body.payloadJson
    idempotencyKey := none
    runAt := call.body.runAt.getD call.runAtNow
    deadlineAt := none
    timeoutSeconds := none
    recurringIntervalSeconds := none
    priority := call.body.priority.getD 0
    maxAttempts := maxAttempts }

end ApiCall

/-- The end of `enqueue_job`, after the checks. `max_attempts` is looked at only here, when the request has counted. -/
def insertJob (call : ApiCall) : Ingest Response := do
  let maxAttempts := call.body.maxAttempts.getD 25
  if maxAttempts ≤ 0 then return .error (.badRequest, "max_attempts must be > 0")
  else
    match ← Ingest.enqueue call.enqueue (call.job maxAttempts) call.insert with
    | .error e => return .error (internalErr e.message)
    | .ok (.ok id) => return .ok id
    | .ok failed => return .error (internalErr (failed.error.getD ""))

/-- `enqueue_job`. -/
def enqueueJob (cfg : EnqueueGuardConfig) (call : ApiCall) : Ingest Response := do
  if (Jobs.trim call.body.jobType.toList).isEmpty then return .error (.badRequest, "job_type is required")
  else
    match ← checkPayload cfg call.guard call.queue call.payloadBytes with
    | .error msg => return .error (enqueueErr msg)
    | .ok () =>
        match ← checkRate cfg call.guard call.queue with
        | .error msg => return .error (enqueueErr msg)
        | .ok () => insertJob call

/-! ## The system -/

/-- A request that has been answered, and the count it drew. -/
structure Handled where
  call : ApiCall
  number : Option (RateKey × Nat)
  response : Response

/-- A job that a request has inserted, and the count that the request had drawn by then. -/
structure Inserted where
  key : RateKey
  number : Option (RateKey × Nat)
  id : Uuid

/-- What has happened: the counts that were committed, the jobs that were inserted, and the requests that were answered. -/
structure IngestHistory where
  tickets : Tickets ClientId RateKey
  inserted : List Inserted
  handled : List Handled

/-- Nothing has happened. -/
def IngestHistory.first : IngestHistory := { tickets := .empty, inserted := [], handled := [] }

/-- How the history follows the requests: a commit draws a number, an insert is noted under it. -/
def ingestRecorder :
    Recorder ClientId ApiCall IngestStmt IngestStmt.Reply Response IngestStore IngestHistory where
  exec i call c s _ h :=
    match c with
    | .commit link => if link.executes then { h with tickets := h.tickets.issue i call.key } else h
    | .enqueue env job link =>
        match link.executes, (Postgres.enqueue s.jobs env job).1 with
        | true, .ok id =>
            { h with inserted := h.inserted ++ [{ key := call.key, number := h.tickets.holder i, id := id }] }
        | _, _ => h
    | _ => h
  finish i call response h :=
    { h with
      tickets := h.tickets.giveBack i
      handled := h.handled ++ [{ call := call, number := h.tickets.holder i, response := response }] }
  crash i h := { h with tickets := h.tickets.giveBack i }

/-- The database: what a request has not committed when it ends is rolled back. -/
def ingestServer : Server ClientId IngestStmt IngestStmt.Reply Response IngestStore where
  exec := IngestStmt.exec
  close i _ s := s.rollback i
  abandon i s := s.rollback i

/-- Requests in progress. -/
abbrev IngestPool := Observed ClientId ApiCall IngestStmt IngestStmt.Reply Response IngestStore IngestHistory

/-- The API and its database, which has counted nothing yet. -/
def ingestSystem (cfg : EnqueueGuardConfig) : System IngestPool (Move ClientId ApiCall) :=
  ingestRecorder.system ingestServer (enqueueJob cfg)
    (fun s => ∀ key, s.counters key = { committed := none, pending := none }) (fun _ => .first)

/-! ## The law -/

/-- What an answer says of the count of its request, and what it leaves on record. -/
structure HandledLaw (cfg : EnqueueGuardConfig) (w : World IngestStore IngestHistory) (h : Handled) : Prop where
  created : ∀ id, h.response = .ok id → ∃ n : Nat, h.number = some (h.call.key, n) ∧
    (n : Int) ≤ cfg.maxEnqueuesPerMinutePerQueue ∧
    { key := h.call.key, number := h.number, id := id } ∈ w.history.inserted
  refused : ∀ msg, h.response = .error (.tooManyRequests, msg) → ∃ n : Nat, h.number = some (h.call.key, n) ∧
    cfg.maxEnqueuesPerMinutePerQueue < (n : Int) ∧
    rateExceeded cfg h.call.guard h.call.queue n ∈ w.store.decisions
  oversized : ∀ msg, h.response = .error (.payloadTooLarge, msg) → h.number = none ∧
    cfg.maxPayloadBytes < h.call.payloadBytes ∧
    payloadTooLarge cfg h.call.guard h.call.queue h.call.payloadBytes ∈ w.store.decisions

/-- What the guard is worth. -/
structure RateLaw (cfg : EnqueueGuardConfig) (o : IngestPool) : Prop where
  limit : ∀ key, (o.history.inserted.filter (fun x => x.key = key)).length ≤ cfg.maxEnqueuesPerMinutePerQueue.toNat
  handled : ∀ h ∈ o.history.handled, HandledLaw cfg o.world h
  distinct : (o.history.handled.filterMap (·.number)).Nodup
  numbered : ∀ h ∈ o.history.handled, ∀ key n, h.number = some (key, n) →
    1 ≤ n ∧ (n : Int) ≤ (o.pool.store.counters key).committed.getD 0
  counted : ∀ key, (o.pool.store.counters key).committed.getD 0 = (o.history.tickets.issued key : Int)
  rest : (∀ i, o.pool.client i = none) → ∀ key,
    (o.history.tickets.returned key).Perm (List.range' 1 (o.history.tickets.issued key))

/-- What holds of the tables and the history at any time. -/
structure IngestInv (cfg : EnqueueGuardConfig) (w : World IngestStore IngestHistory) : Prop where
  account : w.history.tickets.Sound
  count : ∀ key, (w.store.counters key).committed.getD 0 = (w.history.tickets.issued key : Int)
  pending : ∀ key i n, (w.store.counters key).pending = some (i, n) → n = w.history.tickets.issued key + 1
  inserted : ∀ x ∈ w.history.inserted, ∃ n : Nat, x.number = some (x.key, n) ∧ 1 ≤ n ∧
    (n : Int) ≤ cfg.maxEnqueuesPerMinutePerQueue
  insertedOnce : (w.history.inserted.map (·.number)).Nodup
  insertedDrawn : ∀ x ∈ w.history.inserted, ∀ key n, x.number = some (key, n) → n ≤ w.history.tickets.issued key
  handled : ∀ h ∈ w.history.handled, HandledLaw cfg w h
  handledOnce : (w.history.handled.filterMap (·.number)).Nodup
  handledBack : ∀ h ∈ w.history.handled, ∀ key n, h.number = some (key, n) → n ∈ w.history.tickets.returned key

/-- What client `i` relies on: the others leave its row lock, its count and what it has inserted alone, and erase no
    decision. -/
structure IngestRely (i : ClientId) (w w' : World IngestStore IngestHistory) : Prop where
  pending : ∀ key n, (w'.store.counters key).pending = some (i, n) ↔ (w.store.counters key).pending = some (i, n)
  holder : w'.history.tickets.holder i = w.history.tickets.holder i
  decisions : w.store.decisions ⊆ w'.store.decisions
  inserted : ∀ x key n, w.history.tickets.holder i = some (key, n) → x.number = some (key, n) →
    (x ∈ w'.history.inserted ↔ x ∈ w.history.inserted)

/-! ### How far a request is -/

/-- It has counted nothing. -/
structure Fresh (i : ClientId) (w : World IngestStore IngestHistory) : Prop where
  holder : w.history.tickets.holder i = none
  pending : ∀ key n, (w.store.counters key).pending ≠ some (i, n)

/-- It has written its count, and not committed it. -/
structure Drawn (i : ClientId) (key : RateKey) (n : Int) (w : World IngestStore IngestHistory) : Prop where
  holder : w.history.tickets.holder i = none
  pending : (w.store.counters key).pending = some (i, n)
  only : ∀ key' n', (w.store.counters key').pending = some (i, n') → key' = key

/-- It has committed its count, and inserted nothing. -/
structure Counted (i : ClientId) (key : RateKey) (n : Nat) (w : World IngestStore IngestHistory) : Prop where
  holder : w.history.tickets.holder i = some (key, n)
  unused : ∀ x ∈ w.history.inserted, x.number ≠ some (key, n)

/-- What a request promises with each statement. -/
def IngestPromise (cfg : EnqueueGuardConfig) (i : ClientId) (call : ApiCall) :
    IngestStmt → World IngestStore IngestHistory → Prop
  | .countEnqueue _ _, w => Fresh i w
  | .commit _, w => ∃ n, Drawn i call.key n w
  | .enqueue _ _ _, w => ∃ n : Nat, Counted i call.key n w ∧ (n : Int) ≤ cfg.maxEnqueuesPerMinutePerQueue
  | .begin _, _ | .record _ _, _ => True

/-- The discipline of the requests. -/
def ingestDiscipline (cfg : EnqueueGuardConfig) :
    Discipline ClientId ApiCall IngestStmt Response IngestStore IngestHistory where
  inv := IngestInv cfg
  idle := Fresh
  rely := IngestRely
  promise := IngestPromise cfg
  result i call response w :=
    HandledLaw cfg w { call := call, number := w.history.tickets.holder i, response := response }

section Stable

variable {cfg : EnqueueGuardConfig} {i : ClientId} {w w' w'' : World IngestStore IngestHistory} {key : RateKey}

theorem IngestRely.refl (i : ClientId) (w : World IngestStore IngestHistory) : IngestRely i w w :=
  ⟨fun _ _ => Iff.rfl, rfl, List.Subset.refl _, fun _ _ _ _ _ => Iff.rfl⟩

theorem IngestRely.trans (h : IngestRely i w w') (h' : IngestRely i w' w'') : IngestRely i w w'' where
  pending key n := (h'.pending key n).trans (h.pending key n)
  holder := h'.holder.trans h.holder
  decisions := List.Subset.trans h.decisions h'.decisions
  inserted x key n hi hx := (h'.inserted x key n (h.holder.trans hi) hx).trans (h.inserted x key n hi hx)

theorem Fresh.stable (h : Fresh i w) (hw : IngestRely i w w') : Fresh i w' where
  holder := hw.holder.trans h.holder
  pending key n hp := h.pending key n ((hw.pending key n).mp hp)

theorem Drawn.stable {n : Int} (h : Drawn i key n w) (hw : IngestRely i w w') : Drawn i key n w' where
  holder := hw.holder.trans h.holder
  pending := (hw.pending key n).mpr h.pending
  only key' n' hp := h.only key' n' ((hw.pending key' n').mp hp)

theorem Counted.stable {n : Nat} (h : Counted i key n w) (hw : IngestRely i w w') : Counted i key n w' where
  holder := hw.holder.trans h.holder
  unused x hx hn := h.unused x ((hw.inserted x key n h.holder hn).mp hx) hn

/-- What an answer says stays true: nothing is erased. -/
theorem HandledLaw.mono {h : Handled} (hlaw : HandledLaw cfg w h) (hdec : w.store.decisions ⊆ w'.store.decisions)
    (hins : w.history.inserted ⊆ w'.history.inserted) : HandledLaw cfg w' h where
  created id hid := by
    obtain ⟨n, hn, hle, hmem⟩ := hlaw.created id hid
    exact ⟨n, hn, hle, hins hmem⟩
  refused msg hmsg := by
    obtain ⟨n, hn, hlt, hmem⟩ := hlaw.refused msg hmsg
    exact ⟨n, hn, hlt, hdec hmem⟩
  oversized msg hmsg := by
    obtain ⟨hn, hlt, hmem⟩ := hlaw.oversized msg hmsg
    exact ⟨hn, hlt, hdec hmem⟩

/-- An answer that is no denial and no job says nothing. -/
theorem HandledLaw.other {h : Handled} {code : StatusCode} {msg : String} (hr : h.response = .error (code, msg))
    (hmany : code ≠ .tooManyRequests) (hlarge : code ≠ .payloadTooLarge) : HandledLaw cfg w h where
  created id hid := by simp [hr] at hid
  refused msg' h' := by simp [hr, hmany] at h'
  oversized msg' h' := by simp [hr, hlarge] at h'

end Stable

/-! ### What a statement owes to the other requests -/

section Owes

variable {cfg : EnqueueGuardConfig} {i : ClientId} {w w' : World IngestStore IngestHistory} {key : RateKey}

/-- A statement that counts nothing and inserts nothing. -/
theorem owes_neutral (hinv : IngestInv cfg w) (hcounters : w'.store.counters = w.store.counters)
    (hdec : w.store.decisions ⊆ w'.store.decisions) (hhist : w'.history = w.history) :
    (ingestDiscipline cfg).Owes i w w' := by
  refine ⟨⟨?_, ?_, ?_, ?_, ?_, ?_, ?_, ?_, ?_⟩, fun j _ => ⟨?_, ?_, hdec, ?_⟩⟩ <;>
    simp only [hhist, hcounters, implies_true]
  · exact hinv.account
  · exact hinv.count
  · exact hinv.pending
  · exact hinv.inserted
  · exact hinv.insertedOnce
  · exact hinv.insertedDrawn
  · exact fun h hh => (hinv.handled h hh).mono hdec (by rw [hhist]; exact List.Subset.refl _)
  · exact hinv.handledOnce
  · exact hinv.handledBack

/-- A client that has counted nothing draws the next count. -/
theorem nextCount_eq (hinv : IngestInv cfg w) (hfresh : Fresh i w) :
    w.store.nextCount i key = w.history.tickets.issued key + 1 := by
  unfold IngestStore.nextCount
  rw [Cell.visible_committed (hfresh.pending key), hinv.count key]

theorem draw_pending {n : Int} {key' : RateKey} : ((w.store.draw i key n).counters key').pending =
    if key' = key then some (i, n) else (w.store.counters key').pending := by
  by_cases hk : key' = key
  · subst hk
    simp [IngestStore.draw]
  · simp [IngestStore.draw, hk]

theorem draw_committed {n : Int} {key' : RateKey} :
    ((w.store.draw i key n).counters key').committed = (w.store.counters key').committed := by
  by_cases hk : key' = key
  · subst hk
    simp [IngestStore.draw]
  · simp [IngestStore.draw, hk]

/-- A count is drawn. -/
theorem owes_draw (hinv : IngestInv cfg w) (hfresh : Fresh i w) (hheld : (w.store.counters key).heldFrom i = false) :
    (ingestDiscipline cfg).Owes i w
      { store := w.store.draw i key (w.store.nextCount i key), history := w.history } := by
  refine ⟨{ hinv with
      count := fun key' => by simpa only [draw_committed] using hinv.count key'
      pending := ?_
      handled := fun h hh => (hinv.handled h hh).mono (List.Subset.refl _) (List.Subset.refl _) },
    fun j hj => ⟨?_, rfl, List.Subset.refl _, fun _ _ _ _ _ => Iff.rfl⟩⟩
  · intro key' j n hp
    rw [draw_pending] at hp
    split at hp
    · rename_i hk
      subst hk
      cases hp
      exact nextCount_eq hinv hfresh
    · exact hinv.pending key' j n hp
  · intro key' n
    rw [draw_pending]
    split
    · rename_i hk
      subst hk
      refine ⟨fun hp => ?_, fun hp => absurd (Cell.not_held hheld hp) hj⟩
      cases hp
      exact absurd rfl hj
    · exact Iff.rfl

/-- It has been drawn. -/
theorem Fresh.drawn {n : Int} (hfresh : Fresh i w) :
    Drawn i key n { store := w.store.draw i key n, history := w.history } where
  holder := hfresh.holder
  pending := by rw [draw_pending, if_pos rfl]
  only key' n' hp := by
    by_contra hk
    rw [draw_pending, if_neg hk] at hp
    exact hfresh.pending key' n' hp

/-- What a commit leaves of the counters. -/
theorem commit_counters {n : Int} (hdrawn : Drawn i key n w) (key' : RateKey) :
    (w.store.commit i).counters key' =
      if key' = key then { committed := some n, pending := none } else w.store.counters key' := by
  show (w.store.counters key').commit i = _
  rcases (w.store.counters key').commit_cases i with ⟨n', hp, hc⟩ | ⟨hno, hc⟩
  · obtain rfl := hdrawn.only key' n' hp
    rw [hdrawn.pending] at hp
    cases hp
    rw [hc, if_pos rfl]
  · rw [hc, if_neg]
    rintro rfl
    exact hno n hdrawn.pending

/-- A count is committed. -/
theorem owes_commit {n : Int} (hinv : IngestInv cfg w) (hdrawn : Drawn i key n w) :
    (ingestDiscipline cfg).Owes i w
      { store := w.store.commit i, history := { w.history with tickets := w.history.tickets.issue i key } } := by
  have hn := hinv.pending key i n hdrawn.pending
  refine ⟨⟨hinv.account.issue hdrawn.holder, ?_, ?_, hinv.inserted, hinv.insertedOnce, ?_, ?_, hinv.handledOnce,
    hinv.handledBack⟩, fun j hj => ⟨?_, Tickets.issue_holder_of_ne hj, List.Subset.refl _,
      fun _ _ _ _ _ => Iff.rfl⟩⟩
  · intro key'
    simp only [commit_counters hdrawn]
    split
    · rename_i hk
      subst hk
      simp [hn]
    · rename_i hk
      rw [Tickets.issue_issued_of_ne hk]
      exact hinv.count key'
  · intro key' j n' hp
    simp only [commit_counters hdrawn] at hp
    split at hp
    · cases hp
    · rename_i hk
      rw [Tickets.issue_issued_of_ne hk]
      exact hinv.pending key' j n' hp
  · intro x hx key' n' hnum
    exact Nat.le_trans (hinv.insertedDrawn x hx key' n' hnum) (Tickets.issued_le_issue key')
  · exact fun h hh => (hinv.handled h hh).mono (List.Subset.refl _) (List.Subset.refl _)
  · intro key' n'
    exact Cell.commit_pending_of_ne hj

/-- It has been committed. -/
theorem Drawn.counted {n : Int} (hinv : IngestInv cfg w) (hdrawn : Drawn i key n w) :
    n = ((w.history.tickets.issued key + 1 : Nat) : Int) ∧
      Counted i key (w.history.tickets.issued key + 1)
        { store := w.store.commit i, history := { w.history with tickets := w.history.tickets.issue i key } } := by
  refine ⟨by simpa using hinv.pending key i n hdrawn.pending, Tickets.issue_holder_self, fun x hx hnum => ?_⟩
  have hle := hinv.insertedDrawn x hx key _ hnum
  omega

/-- A job is inserted. -/
theorem owes_insert {n : Nat} {id : Uuid} {jobs : JobsTable} (hinv : IngestInv cfg w) (hcounted : Counted i key n w)
    (hn : (n : Int) ≤ cfg.maxEnqueuesPerMinutePerQueue) :
    (ingestDiscipline cfg).Owes i w
      { store := { w.store with jobs := jobs }
        history := { w.history with
          inserted := w.history.inserted ++
            [{ key := key, number := w.history.tickets.holder i, id := id }] } } := by
  have hheld := hinv.account.held hcounted.holder
  rw [hcounted.holder]
  refine ⟨{ hinv with inserted := ?_, insertedOnce := ?_, insertedDrawn := ?_, handled := ?_ }, fun j hj =>
    ⟨fun _ _ => Iff.rfl, rfl, List.Subset.refl _, ?_⟩⟩
  · intro x hx
    rcases List.mem_append.mp hx with hold | hnew
    · exact hinv.inserted x hold
    · obtain rfl := List.mem_singleton.mp hnew
      exact ⟨n, rfl, hheld.1, hn⟩
  · rw [List.map_append, List.map_singleton]
    refine List.nodup_append_comm.mp (List.nodup_cons.mpr ⟨fun hmem => ?_, hinv.insertedOnce⟩)
    obtain ⟨x, hx, hnum⟩ := List.mem_map.mp hmem
    exact hcounted.unused x hx hnum
  · intro x hx key' n' hnum
    rcases List.mem_append.mp hx with hold | hnew
    · exact hinv.insertedDrawn x hold key' n' hnum
    · obtain rfl := List.mem_singleton.mp hnew
      cases hnum
      exact hheld.2
  · exact fun h hh => (hinv.handled h hh).mono (List.Subset.refl _) (List.subset_append_left ..)
  · intro x key' n' hjold hnum
    refine ⟨fun hx => ?_, fun hx => List.mem_append_left _ hx⟩
    rcases List.mem_append.mp hx with hold | hnew
    · exact hold
    · obtain rfl := List.mem_singleton.mp hnew
      cases hnum
      exact absurd (hinv.account.owner j i key n hjold hcounted.holder) hj

/-- A request ends, answered or not. -/
theorem owes_end (handled : Option Handled) (hinv : IngestInv cfg w)
    (hlaw : ∀ h ∈ handled.toList, HandledLaw cfg w h ∧ h.number = w.history.tickets.holder i) :
    (ingestDiscipline cfg).Owes i w
        { store := w.store.rollback i
          history := { w.history with
            tickets := w.history.tickets.giveBack i, handled := w.history.handled ++ handled.toList } } ∧
      (ingestDiscipline cfg).idle i
        { store := w.store.rollback i
          history := { w.history with
            tickets := w.history.tickets.giveBack i, handled := w.history.handled ++ handled.toList } } := by
  refine ⟨⟨⟨hinv.account.giveBack i, ?_, ?_, hinv.inserted, hinv.insertedOnce, ?_, ?_, ?_, ?_⟩, fun j hj =>
    ⟨fun _ _ => Cell.rollback_pending_of_ne hj, Tickets.giveBack_holder_of_ne hj, List.Subset.refl _,
      fun _ _ _ _ _ => Iff.rfl⟩⟩, ⟨Tickets.giveBack_holder_self, fun _ _ => Cell.rollback_pending_self⟩⟩
  · intro key
    simpa [IngestStore.rollback] using hinv.count key
  · intro key j n hp
    have hji : j ≠ i := by
      rintro rfl
      exact Cell.rollback_pending_self hp
    simpa using hinv.pending key j n ((Cell.rollback_pending_of_ne hji).mp hp)
  · simpa using hinv.insertedDrawn
  · intro h hh
    rcases List.mem_append.mp hh with hold | hnew
    · exact (hinv.handled h hold).mono (List.Subset.refl _) (List.Subset.refl _)
    · exact (hlaw h hnew).1.mono (List.Subset.refl _) (List.Subset.refl _)
  · -- what the client holds it has not given back, so no request was answered with it
    rw [List.filterMap_append]
    refine List.nodup_append.mpr ⟨hinv.handledOnce, ?_, ?_⟩
    · cases handled with
      | none => simp
      | some h => cases hnum : h.number <;> simp [hnum]
    · intro number hold number' hnew
      rintro rfl
      obtain ⟨h, hh, hnum⟩ := List.mem_filterMap.mp hold
      obtain ⟨h', hh', hnum'⟩ := List.mem_filterMap.mp hnew
      rw [(hlaw h' hh').2] at hnum'
      exact hinv.account.apart i number.1 number.2 hnum' (hinv.handledBack h hh number.1 number.2 hnum)
  · intro h hh key n hnum
    rw [Tickets.mem_giveBack_returned]
    rcases List.mem_append.mp hh with hold | hnew
    · exact Or.inl (hinv.handledBack h hold key n hnum)
    · exact Or.inr ((hlaw h hnew).2.symm.trans hnum)

end Owes

/-! ### Statement by statement -/

section Keeps

variable {cfg : EnqueueGuardConfig} {i : ClientId} {call : ApiCall} {w : World IngestStore IngestHistory}

/-- The rest of a request keeps its promises. -/
abbrev Kept (cfg : EnqueueGuardConfig) (i : ClientId) (call : ApiCall) (p : Ingest Response)
    (w : World IngestStore IngestHistory) : Prop :=
  (ingestDiscipline cfg).Keeps ingestRecorder ingestServer i call p w

theorem error_kept {code : StatusCode} {msg : String} (hmany : code ≠ .tooManyRequests)
    (hlarge : code ≠ .payloadTooLarge) : Kept cfg i call (.done (.error (code, msg))) w :=
  fun _ _ _ => .other rfl hmany hlarge

/-- An error of the database is no denial. -/
theorem enqueueErr_message (e : SqlxError) : enqueueErr e.message = internalErr e.message := by
  simp [enqueueErr, e.notTooLarge, e.notExceeded]

/-- The guard's own errors are. -/
theorem enqueueErr_exceeded :
    enqueueErr "ENQUEUE_RATE_EXCEEDED" = (.tooManyRequests, "ENQUEUE_RATE_EXCEEDED") := by decide

theorem enqueueErr_tooLarge : enqueueErr "PAYLOAD_TOO_LARGE" = (.payloadTooLarge, "PAYLOAD_TOO_LARGE") := by decide

theorem sqlxError_kept (e : SqlxError) : Kept cfg i call (.done (.error (enqueueErr e.message))) w := by
  rw [enqueueErr_message]
  exact error_kept (by simp) (by simp)

theorem begin_kept {link : Link} {k : Except SqlxError Unit → Ingest Response} (hfresh : Fresh i w)
    (herror : ∀ e w', Kept cfg i call (k (.error e)) w')
    (hok : ∀ w', Fresh i w' → Kept cfg i call (k (.ok ())) w') : Kept cfg i call (.call (.begin link) k) w := by
  intro w₁ h₁ _
  refine ⟨trivial, fun r σ' hexec _ => ?_⟩
  obtain rfl := begin_spec i hexec
  cases r with
  | error e => exact herror e _
  | ok _ => exact hok _ (hfresh.stable h₁)

theorem count_kept {key : RateKey} {link : Link} {k : Except SqlxError Int → Ingest Response} (hfresh : Fresh i w)
    (herror : ∀ e w', Kept cfg i call (k (.error e)) w')
    (hok : ∀ n w', Drawn i key n w' → Kept cfg i call (k (.ok n)) w') :
    Kept cfg i call (.call (.countEnqueue key link) k) w := by
  intro w₁ h₁ _
  refine ⟨hfresh.stable h₁, fun r σ' hexec _ => ?_⟩
  rcases countEnqueue_spec i hexec with ⟨_, e, rfl⟩ | ⟨_, rfl, rfl | ⟨e, rfl⟩⟩
  · exact herror e _
  · exact hok _ _ (hfresh.stable h₁).drawn
  · exact herror e _

/-- A decision changes nothing that a client relies on. -/
theorem record_kept {P : World IngestStore IngestHistory → Prop} {row : IngestDecision} {link : Link}
    {k : Except SqlxError Unit → Ingest Response} (hstable : ∀ {w w'}, P w → IngestRely i w w' → P w') (hP : P w)
    (herror : ∀ e w', Kept cfg i call (k (.error e)) w')
    (hok : ∀ w', P w' → row ∈ w'.store.decisions → Kept cfg i call (k (.ok ())) w') :
    Kept cfg i call (.call (.record row link) k) w := by
  intro w₁ h₁ _
  refine ⟨trivial, fun r σ' hexec _ => ?_⟩
  obtain ⟨hcounters, hdec, hrow⟩ := record_spec i hexec
  cases r with
  | error e => exact herror e _
  | ok _ =>
      refine hok _ (hstable (hstable hP h₁) ⟨fun key n => ?_, rfl, hdec, fun _ _ _ _ _ => Iff.rfl⟩) (hrow rfl)
      rw [hcounters]

theorem commit_kept {n : Int} {link : Link} {k : Except SqlxError Unit → Ingest Response}
    (hdrawn : Drawn i call.key n w) (herror : ∀ e w', Kept cfg i call (k (.error e)) w')
    (hok : ∀ (m : Nat) w', n = m → Counted i call.key m w' → w.store.decisions ⊆ w'.store.decisions →
      Kept cfg i call (k (.ok ())) w') : Kept cfg i call (.call (.commit link) k) w := by
  intro w₁ h₁ hinv₁
  have hdrawn₁ := hdrawn.stable h₁
  refine ⟨⟨n, hdrawn₁⟩, fun r σ' hexec _ => ?_⟩
  rcases commit_spec i hexec with ⟨hsent, rfl⟩ | ⟨_, _, e, rfl⟩
  · cases r with
    | error e => exact herror e _
    | ok _ =>
        have hhist : ingestRecorder.exec i call (.commit link) w₁.store (.ok ()) w₁.history =
            { w₁.history with tickets := w₁.history.tickets.issue i call.key } := if_pos hsent
        rw [hhist]
        obtain ⟨hn, hcounted⟩ := hdrawn₁.counted hinv₁
        exact hok _ _ hn hcounted h₁.decisions
  · exact herror e _

theorem enqueue_kept {n : Nat} {env : EnqueueEnv} {job : NewJob} {link : Link}
    {k : Except SqlxError (Outcome Uuid) → Ingest Response} (hcounted : Counted i call.key n w)
    (hn : (n : Int) ≤ cfg.maxEnqueuesPerMinutePerQueue)
    (hother : ∀ r w', (∀ id, r ≠ .ok (.ok id)) → Kept cfg i call (k r) w')
    (hok : ∀ id w', w'.history.tickets.holder i = some (call.key, n) →
      { key := call.key, number := some (call.key, n), id := id } ∈ w'.history.inserted →
        Kept cfg i call (k (.ok (.ok id))) w') : Kept cfg i call (.call (.enqueue env job link) k) w := by
  intro w₁ h₁ _
  have hcounted₁ := hcounted.stable h₁
  refine ⟨⟨n, hcounted₁, hn⟩, fun r σ' hexec _ => ?_⟩
  by_cases hr : ∃ id, r = .ok (.ok id)
  · obtain ⟨id, rfl⟩ := hr
    obtain ⟨hsent, hid⟩ := (enqueue_spec i hexec).2.2 id rfl
    have hhist : ingestRecorder.exec i call (.enqueue env job link) w₁.store (.ok (.ok id)) w₁.history =
        { w₁.history with inserted := w₁.history.inserted ++
            [{ key := call.key, number := w₁.history.tickets.holder i, id := id }] } := by
      simp only [ingestRecorder, hsent, hid]
    rw [hhist]
    refine hok id _ hcounted₁.holder ?_
    rw [hcounted₁.holder]
    exact List.mem_append_right _ (List.mem_singleton_self _)
  · exact hother r _ fun id hid => hr ⟨id, hid⟩

/-! ### The request -/

theorem insertJob_kept {n : Nat} (hcounted : Counted i call.key n w)
    (hn : (n : Int) ≤ cfg.maxEnqueuesPerMinutePerQueue) : Kept cfg i call (insertJob call) w := by
  simp only [insertJob, Ingest.enqueue, Prog.call_bind, Prog.done_bind, Prog.pure_eq]
  split
  · exact error_kept (by simp) (by simp)
  · refine enqueue_kept hcounted hn ?_ ?_
    · intro r w' hr
      rcases r with e | outcome
      · exact error_kept (by simp) (by simp)
      · cases outcome with
        | ok id => exact absurd rfl (hr id)
        | err msg => exact error_kept (by simp) (by simp)
        | panic => exact error_kept (by simp) (by simp)
    · intro id w' hholder hmem w'' hrely _
      have hholder' := hrely.holder.trans hholder
      have hmem' := (hrely.inserted _ _ _ hholder rfl).mpr hmem
      refine ⟨?_, fun msg h => (by cases h), fun msg h => (by cases h)⟩
      rintro _ ⟨⟩
      exact ⟨n, hholder', hn, by rw [hholder']; exact hmem'⟩

/-- `check_rate` and what comes after it. -/
theorem checkRate_kept (hfresh : Fresh i w) :
    Kept cfg i call
      (checkRate cfg call.guard call.queue >>= fun checked =>
        match checked with
        | .error msg => Prog.done (.error (enqueueErr msg))
        | .ok () => insertJob call) w := by
  simp only [checkRate, Ingest.begin, Ingest.countEnqueue, Ingest.record, Ingest.commit, Prog.call_bind, Prog.done_bind,
    Prog.pure_eq]
  refine begin_kept hfresh (fun e w' => sqlxError_kept e) fun w₁ hfresh₁ => ?_
  simp only [Prog.call_bind]
  refine count_kept hfresh₁ (fun e w' => sqlxError_kept e) fun n w₂ hdrawn => ?_
  show Kept cfg i call ((if n > _ then _ else _) >>= _) w₂
  by_cases hlimit : n > cfg.maxEnqueuesPerMinutePerQueue
  · -- above the limit: the decision is on record before the count is committed
    rw [if_pos hlimit]
    refine record_kept (fun h => h.stable) hdrawn (fun e w' => sqlxError_kept e) fun w₃ hdrawn₃ hrow => ?_
    refine commit_kept hdrawn₃ (fun e w' => sqlxError_kept e) fun m w₄ hm hcounted hdec => ?_
    intro w₅ h₅ _
    refine ⟨fun id h => (by cases h), fun msg _ => ?_, fun msg h => ?_⟩
    · refine ⟨m, h₅.holder.trans hcounted.holder, hm ▸ hlimit, h₅.decisions (hdec ?_)⟩
      rw [← hm]
      exact hrow
    · simp [enqueueErr_exceeded] at h
  · rw [if_neg hlimit]
    refine commit_kept hdrawn (fun e w' => sqlxError_kept e) fun m w₃ hm hcounted _ => ?_
    exact insertJob_kept hcounted (by omega)

/-- A request keeps its promises. -/
theorem enqueueJob_kept (hfresh : Fresh i w) : Kept cfg i call (enqueueJob cfg call) w := by
  unfold enqueueJob
  split
  · exact error_kept (by simp) (by simp)
  · unfold checkPayload
    split
    · rename_i hlarge
      simp only [Ingest.record, Prog.call_bind, Prog.done_bind, Prog.pure_eq]
      refine record_kept (fun h => h.stable) hfresh (fun e w' => sqlxError_kept e) fun w₁ hfresh₁ hrow => ?_
      intro w₂ h₂ _
      refine ⟨fun id h => (by cases h), fun msg h => ?_, fun msg _ => ?_⟩
      · simp [enqueueErr_tooLarge] at h
      · exact ⟨h₂.holder.trans hfresh₁.holder, hlarge, h₂.decisions hrow⟩
    · exact checkRate_kept hfresh

end Keeps

/-! ### Every run -/

/-- A statement of a request in progress. -/
theorem exec_owes {cfg : EnqueueGuardConfig} {i : ClientId} {call : ApiCall} {c : IngestStmt}
    {w : World IngestStore IngestHistory} {r : c.Reply} {σ' : IngestStore} (hinv : IngestInv cfg w)
    (hexec : c.exec i w.store = some (r, σ')) (hpromise : IngestPromise cfg i call c w) :
    (ingestDiscipline cfg).Owes i w
      { store := σ', history := ingestRecorder.exec i call c w.store r w.history } := by
  cases c with
  | begin link =>
      obtain rfl := begin_spec i hexec
      exact owes_neutral hinv rfl (List.Subset.refl _) rfl
  | countEnqueue key link =>
      rcases countEnqueue_spec i hexec with ⟨rfl, _⟩ | ⟨hheld, rfl, _⟩
      · exact owes_neutral hinv rfl (List.Subset.refl _) rfl
      · exact owes_draw hinv hpromise hheld
  | record row link =>
      obtain ⟨hcounters, hdec, _⟩ := record_spec i hexec
      exact owes_neutral hinv hcounters hdec rfl
  | commit link =>
      obtain ⟨n, hdrawn⟩ := hpromise
      rcases commit_spec i hexec with ⟨hsent, rfl⟩ | ⟨hunsent, rfl, _⟩
      · have hhist : ingestRecorder.exec i call (.commit link) w.store r w.history =
            { w.history with tickets := w.history.tickets.issue i call.key } := if_pos hsent
        rw [hhist]
        exact owes_commit hinv hdrawn
      · have hhist : ingestRecorder.exec i call (.commit link) w.store r w.history = w.history :=
          if_neg (by simp [hunsent])
        rw [hhist]
        exact owes_neutral hinv rfl (List.Subset.refl _) rfl
  | enqueue env job link =>
      obtain ⟨n, hcounted, hn⟩ := hpromise
      obtain ⟨hcounters, hdec, _⟩ := enqueue_spec i hexec
      have hstore : σ' = { w.store with jobs := σ'.jobs } := by
        cases σ'
        simp_all
      rw [hstore]
      unfold ingestRecorder
      simp only
      split
      · exact owes_insert hinv hcounted hn
      · exact owes_neutral hinv rfl (List.Subset.refl _) rfl

/-- Every step keeps to the discipline. -/
theorem ingest_obeyed (cfg : EnqueueGuardConfig) :
    (ingestDiscipline cfg).Obeyed ingestRecorder ingestServer (enqueueJob cfg) (ingestSystem cfg) where
  next h := h
  refl := IngestRely.refl
  trans _ _ _ _ := IngestRely.trans
  idle := Fresh.stable
  init := by
    rintro o ⟨hcounters, hclients, hhist⟩
    have hw : o.world = { store := o.pool.store, history := .first } :=
      congrArg (World.mk o.pool.store) hhist
    rw [hw]
    refine ⟨hclients, ?_, fun i => ⟨rfl, fun key n hp => ?_⟩⟩
    · refine ⟨Tickets.empty_sound, fun key => ?_, fun key i n hp => ?_, ?_, List.nodup_nil, ?_, ?_, List.nodup_nil, ?_⟩
      · show (o.pool.store.counters key).committed.getD 0 = 0
        rw [hcounters key]
        rfl
      · rw [show (o.pool.store.counters key).pending = none by rw [hcounters key]] at hp
        cases hp
      all_goals
        intro x hx
        cases hx
    · rw [show (o.pool.store.counters key).pending = none by rw [hcounters key]] at hp
      cases hp
  start h _ hidle := ⟨⟨h.inv, fun j _ => IngestRely.refl j _⟩, enqueueJob_kept hidle⟩
  exec h _ _ hexec hpromise := exec_owes h.inv hexec hpromise
  finish := by
    intro o i call response o' h _ _ hresult
    refine owes_end (some { call := call, number := o.history.tickets.holder i, response := response }) h.inv ?_
    intro x hx
    obtain rfl := List.mem_singleton.mp hx
    exact ⟨hresult, rfl⟩
  crash := by
    intro o i call p o' h _ _ _
    have hend := @owes_end cfg i o.world none h.inv fun x hx => by cases hx
    simp only [Option.toList_none, List.append_nil] at hend
    exact hend

/-- The counts of the jobs that were inserted under a key are distinct numbers up to the limit. -/
theorem inserted_le {cfg : EnqueueGuardConfig} {w : World IngestStore IngestHistory} (hinv : IngestInv cfg w)
    (key : RateKey) : (w.history.inserted.filter (fun x => x.key = key)).length ≤
      cfg.maxEnqueuesPerMinutePerQueue.toNat := by
  let under := w.history.inserted.filter (fun x => x.key = key)
  let count : Inserted → Nat := fun x => (x.number.map (·.2)).getD 0
  have hcount : ∀ x ∈ under, x.number = some (key, count x) ∧ 1 ≤ count x ∧
      count x ≤ cfg.maxEnqueuesPerMinutePerQueue.toNat := by
    intro x hx
    obtain ⟨hmem, hkey⟩ := List.mem_filter.mp hx
    obtain ⟨n, hn, hpos, hle⟩ := hinv.inserted x hmem
    have hval : count x = n := by simp [count, hn]
    rw [hval, ← of_decide_eq_true hkey]
    exact ⟨hn, hpos, by omega⟩
  have hnumbers : under.map (·.number) = (under.map count).map (fun n => some (key, n)) := by
    rw [List.map_map]
    exact List.map_congr_left fun x hx => (hcount x hx).1
  have hnodup : (under.map count).Nodup := by
    refine List.Nodup.of_map (fun n => some (key, n)) ?_
    rw [← hnumbers]
    exact hinv.insertedOnce.sublist (List.filter_sublist.map _)
  have hle := Tickets.length_le_of_bounded hnodup fun n hn => by
    obtain ⟨x, hx, rfl⟩ := List.mem_map.mp hn
    exact (hcount x hx).2
  rwa [List.length_map] at hle

/-- **The law of the guard.** In every run of the API, whatever interleaves, fails or dies: under a queue and a minute at
    most `max_enqueues_per_minute_per_queue` jobs are inserted; an answered request whose job was inserted has a count
    within the limit, one that was refused has a count above it, and every denial has its row; no two answered requests
    have the same count and none has one above the counter, which is the number of counts committed; at rest these are the
    numbers up to it. -/
theorem rate_law {cfg : EnqueueGuardConfig} {o : IngestPool} (ho : (ingestSystem cfg).Reachable o) :
    RateLaw cfg o := by
  have h := (ingest_obeyed cfg).holds ho
  refine ⟨inserted_le h.inv, h.inv.handled, h.inv.handledOnce, fun x hx key n hnum => ?_, h.inv.count,
    fun hidle key => ?_⟩
  · obtain ⟨hpos, hle⟩ := (h.inv.account.numbers key n).mp (Or.inl (h.inv.handledBack x hx key n hnum))
    have hcount : (o.pool.store.counters key).committed.getD 0 = (o.history.tickets.issued key : Int) := h.inv.count key
    rw [hcount]
    exact ⟨hpos, by exact_mod_cast hle⟩
  · refine h.inv.account.returned_perm (fun i => ?_) key
    have hstands := h.stands i
    rw [hidle i] at hstands
    exact hstands.holder

/-! ### Two requests in one minute -/

/-- One enqueue a minute. -/
def oneAMinute : EnqueueGuardConfig := { maxPayloadBytes := 16, maxEnqueuesPerMinutePerQueue := 1 }

/-- A request for an email, whose job or denial gets this id. -/
def emailRequest (id : Uuid) : ApiCall :=
  { body := { queue := some "emails", jobType := "welcome", payloadJson := "\x7b\x7d", runAt := none, priority := none,
              maxAttempts := none }
    guard := { now := 61000000000, decisionId := id, decidedAt := 62000000000, begin := .answered, count := .answered,
               record := .answered, commit := .answered }
    runAtNow := 63000000000
    enqueue := { now := 63000000000, newId := id, ensured := .ok (), notified := .ok () }
    insert := .answered }

/-- Nothing is stored, and nobody asks. -/
def idleApi : IngestPool :=
  { pool := { store := { counters := fun _ => { committed := none, pending := none }, decisions := [],
                         jobs := .empty },
              client := fun _ => none },
    history := .first }

/-- Two requests, the second one counting after the first one's commit. -/
def twoRequests : List (Move ClientId ApiCall) :=
  [.start 0 (emailRequest 7), .start 1 (emailRequest 8), .exec 0, .exec 1, .exec 0, .exec 0, .exec 1, .exec 1, .exec 0,
    .finish 0, .exec 1, .finish 1]

/-- The API after them. -/
def afterTwo : IngestPool :=
  (ingestRecorder.run ingestServer (enqueueJob oneAMinute) idleApi twoRequests).getD idleApi

theorem idleApi_reachable : (ingestSystem oneAMinute).Reachable idleApi := .start ⟨fun _ => rfl, fun _ => rfl, rfl⟩

/-- The first one is a job, the second one is refused. -/
theorem rate_law_two : RateLaw oneAMinute afterTwo ∧ afterTwo.history.handled.map (·.response) =
    [.ok 7, .error (.tooManyRequests, "ENQUEUE_RATE_EXCEEDED")] :=
  ⟨rate_law (Recorder.reachable_run twoRequests idleApi_reachable rfl), by decide⟩

end Azums.Dashboard
