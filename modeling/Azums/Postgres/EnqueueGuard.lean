import Azums.Lib.Discipline
import Azums.Postgres.Transactions

/-!
# `Postgres.EnqueueGuard` — admission to the queue

`EnqueueGuard` stands before the `jobs` table: `check_payload` turns away what is too large, `check_rate` counts the
enqueues of a queue in the current minute and turns away those above the limit. Each denial leaves a row in
`ingest_decisions`, written on a connection of its own, so that it stays when the counting transaction does not.

The two checks are programs of statements, as in `Postgres.Transactions`. Every statement says what becomes of it
(`Link`): it is answered, it never arrives, or it is executed and the answer is lost.
-/

namespace Azums.Postgres

/-- `EnqueueGuardConfig`. -/
structure EnqueueGuardConfig where
  maxPayloadBytes : Nat
  maxEnqueuesPerMinutePerQueue : Int

/-- `EnqueueGuardConfig::default`. -/
def EnqueueGuardConfig.default : EnqueueGuardConfig :=
  { maxPayloadBytes := 256 * 1024, maxEnqueuesPerMinutePerQueue := 10000 }

/-! ## Errors -/

/-- `str::contains`, of a text in a text. -/
def contains (msg code : String) : Bool := msg.toList.tails.any (fun rest => code.toList.isPrefixOf rest)

/-- An error of the database or of the connection to it. It is none of the guard's. -/
structure SqlxError where
  message : String
  notTooLarge : contains message "PAYLOAD_TOO_LARGE" = false
  notExceeded : contains message "ENQUEUE_RATE_EXCEEDED" = false

/-- What the database says when a counter is full. -/
def SqlxError.outOfRange : SqlxError :=
  { message := "bigint out of range", notTooLarge := by decide, notExceeded := by decide }

/-- What the database says when an id is drawn twice. -/
def SqlxError.duplicateKey : SqlxError :=
  { message := "duplicate key value violates unique constraint", notTooLarge := by decide, notExceeded := by decide }

/-- What becomes of a statement. -/
inductive Link where
  | answered
  | unsent (e : SqlxError)
  | lost (e : SqlxError)

/-- The statement is executed. -/
def Link.executes : Link → Bool
  | answered | lost _ => true
  | unsent _ => false

/-! ## The tables -/

/-- The primary key of `enqueue_rate_counters`: the queue, and the start of the minute. -/
abbrev RateKey := String × DateTime

/-- A row of `ingest_decisions`. -/
structure IngestDecision where
  id : Uuid
  queue : String
  decision : String
  reasonCode : String
  detailsJson : List (String × Int)
  createdAt : DateTime
deriving DecidableEq

/-- The tables that an enqueue reads and writes. -/
structure IngestStore where
  counters : RateKey → Cell ClientId Int
  decisions : List IngestDecision
  jobs : JobsTable

/-- `i64::MAX`. -/
def maxBigint : Int := 9223372036854775807

namespace IngestStore

/-- The store in which a transaction has written a count. -/
def draw (s : IngestStore) (i : ClientId) (key : RateKey) (count : Int) : IngestStore :=
  { s with counters := Function.update s.counters key { s.counters key with pending := some (i, count) } }

/-- `INSERT INTO enqueue_rate_counters … VALUES ($1, $2, 1) ON CONFLICT … DO UPDATE SET count = count + 1 RETURNING
    count`. It waits while another transaction has the row. -/
def countEnqueue (s : IngestStore) (i : ClientId) (key : RateKey) : Option (Except SqlxError Int × IngestStore) :=
  if (s.counters key).heldFrom i then none
  else
    match (s.counters key).visible i with
    | none => some (.ok 1, s.draw i key 1)
    | some count =>
        if count = maxBigint then some (.error .outOfRange, s) else some (.ok (count + 1), s.draw i key (count + 1))

/-- `IngestDecisionsRepo::record`, in a transaction of its own. -/
def record (s : IngestStore) (row : IngestDecision) : Except SqlxError Unit × IngestStore :=
  if s.decisions.any (fun d => d.id == row.id) then (.error .duplicateKey, s)
  else (.ok (), { s with decisions := s.decisions ++ [row] })

/-- `COMMIT`. -/
def commit (s : IngestStore) (i : ClientId) : IngestStore :=
  { s with counters := fun key => (s.counters key).commit i }

/-- `ROLLBACK`. -/
def rollback (s : IngestStore) (i : ClientId) : IngestStore :=
  { s with counters := fun key => (s.counters key).rollback i }

end IngestStore

/-! ## Statements -/

/-- What a request sends. -/
inductive IngestStmt where
  | begin (link : Link)
  | countEnqueue (key : RateKey) (link : Link)
  | record (row : IngestDecision) (link : Link)
  | commit (link : Link)
  | enqueue (env : EnqueueEnv) (job : NewJob) (link : Link)

/-- What it is answered. -/
@[reducible] def IngestStmt.Reply : IngestStmt → Type
  | .countEnqueue _ _ => Except SqlxError Int
  | .enqueue _ _ _ => Except SqlxError (Outcome Uuid)
  | .begin _ | .record _ _ | .commit _ => Except SqlxError Unit

/-- The answer that gets through, and what the statement leaves of the store. -/
def Link.through {α σ : Type} (link : Link) (done : Except SqlxError α × σ) (s : σ) : Except SqlxError α × σ :=
  match link with
  | answered => done
  | unsent e => (.error e, s)
  | lost e => (.error e, done.2)

/-- One statement of client `i`; `none` while it waits. -/
def IngestStmt.exec (i : ClientId) : (c : IngestStmt) → IngestStore → Option (c.Reply × IngestStore)
  | .begin link, s => some (link.through (.ok (), s) s)
  | .countEnqueue key link, s =>
      if link.executes then (s.countEnqueue i key).map (fun done => link.through done s)
      else some (link.through (.ok 0, s) s)
  | .record row link, s => some (link.through (s.record row) s)
  | .commit link, s => some (link.through (.ok (), s.commit i) s)
  | .enqueue env job link, s =>
      let done := Azums.Postgres.enqueue s.jobs env job
      some (link.through (.ok done.1, { s with jobs := done.2 }) s)

/-! ### What a statement can do -/

/-- The count that comes next for a client. -/
def IngestStore.nextCount (s : IngestStore) (i : ClientId) (key : RateKey) : Int :=
  ((s.counters key).visible i).getD 0 + 1

section Statements

variable {s s' : IngestStore} {key : RateKey} {link : Link} (i : ClientId)

theorem begin_spec {r : Except SqlxError Unit} (h : (IngestStmt.begin link).exec i s = some (r, s')) : s' = s := by
  cases link <;> simp_all [IngestStmt.exec, Link.through]

/-- A count is drawn, unless the statement fails; an answer that gets through is that count. -/
theorem countEnqueue_spec {r : Except SqlxError Int}
    (h : (IngestStmt.countEnqueue key link).exec i s = some (r, s')) :
    (s' = s ∧ ∃ e, r = .error e) ∨
      ((s.counters key).heldFrom i = false ∧ s' = s.draw i key (s.nextCount i key) ∧
        (r = .ok (s.nextCount i key) ∨ ∃ e, r = .error e)) := by
  have hdone : ∀ {done}, s.countEnqueue i key = some done →
      (done.2 = s ∧ ∃ e, done.1 = .error e) ∨ ((s.counters key).heldFrom i = false ∧
        done.2 = s.draw i key (s.nextCount i key) ∧ done.1 = .ok (s.nextCount i key)) := by
    intro done hd
    unfold IngestStore.countEnqueue at hd
    split at hd
    · cases hd
    · rename_i hheld
      rw [Bool.not_eq_true] at hheld
      split at hd
      · rename_i hvis
        cases hd
        exact Or.inr ⟨hheld, by simp [IngestStore.nextCount, hvis], by simp [IngestStore.nextCount, hvis]⟩
      · rename_i count hvis
        split at hd
        · cases hd
          exact Or.inl ⟨rfl, _, rfl⟩
        · cases hd
          exact Or.inr ⟨hheld, by simp [IngestStore.nextCount, hvis], by simp [IngestStore.nextCount, hvis]⟩
  cases link with
  | answered =>
      obtain ⟨done, hd, heq⟩ := Option.map_eq_some_iff.mp h
      cases heq
      rcases hdone hd with ⟨hs, he⟩ | ⟨hheld, hs, hr⟩
      · exact Or.inl ⟨hs, he⟩
      · exact Or.inr ⟨hheld, hs, Or.inl hr⟩
  | unsent e =>
      cases h
      exact Or.inl ⟨rfl, e, rfl⟩
  | lost e =>
      obtain ⟨done, hd, heq⟩ := Option.map_eq_some_iff.mp h
      cases heq
      rcases hdone hd with ⟨hs, _⟩ | ⟨hheld, hs, _⟩
      · exact Or.inl ⟨hs, e, rfl⟩
      · exact Or.inr ⟨hheld, hs, Or.inr ⟨e, rfl⟩⟩

/-- A decision is added, unless the statement fails. Nothing else changes. -/
theorem record_spec {row : IngestDecision} {r : Except SqlxError Unit}
    (h : (IngestStmt.record row link).exec i s = some (r, s')) :
    s'.counters = s.counters ∧ s.decisions ⊆ s'.decisions ∧ (r = .ok () → row ∈ s'.decisions) := by
  have hdone : (s.record row).2.counters = s.counters ∧ s.decisions ⊆ (s.record row).2.decisions ∧
      ((s.record row).1 = .ok () → row ∈ (s.record row).2.decisions) := by
    unfold IngestStore.record
    split
    · exact ⟨rfl, List.Subset.refl _, fun hr => by cases hr⟩
    · exact ⟨rfl, List.subset_append_left .., fun _ => by simp⟩
  cases link with
  | answered =>
      have heq : s.record row = (r, s') := Option.some.inj h
      rw [heq] at hdone
      exact hdone
  | unsent e =>
      cases h
      exact ⟨rfl, List.Subset.refl _, fun hr => by cases hr⟩
  | lost e =>
      cases h
      exact ⟨hdone.1, hdone.2.1, fun hr => by cases hr⟩

/-- A commit happens, or it is not sent. -/
theorem commit_spec {r : Except SqlxError Unit} (h : (IngestStmt.commit link).exec i s = some (r, s')) :
    (link.executes = true ∧ s' = s.commit i) ∨ (link.executes = false ∧ s' = s ∧ ∃ e, r = .error e) := by
  cases link with
  | answered =>
      cases h
      exact Or.inl ⟨rfl, rfl⟩
  | unsent e =>
      cases h
      exact Or.inr ⟨rfl, rfl, e, rfl⟩
  | lost e =>
      cases h
      exact Or.inl ⟨rfl, rfl⟩

/-- An insert writes jobs only; an id that is answered is the id of the insert. -/
theorem enqueue_spec {env : EnqueueEnv} {job : NewJob} {r : Except SqlxError (Outcome Uuid)}
    (h : (IngestStmt.enqueue env job link).exec i s = some (r, s')) :
    s'.counters = s.counters ∧ s'.decisions = s.decisions ∧
      ∀ id, r = .ok (.ok id) → link.executes = true ∧ (enqueue s.jobs env job).1 = .ok id := by
  cases link with
  | answered =>
      cases h
      exact ⟨rfl, rfl, fun id hr => ⟨rfl, Except.ok.inj hr⟩⟩
  | unsent e =>
      cases h
      exact ⟨rfl, rfl, fun id hr => by cases hr⟩
  | lost e =>
      cases h
      exact ⟨rfl, rfl, fun id hr => by cases hr⟩

end Statements

/-- The statements of a request, then its outcome. -/
abbrev Ingest (α : Type) := Prog IngestStmt IngestStmt.Reply α

namespace Ingest

def begin (link : Link) : Ingest (Except SqlxError Unit) := .call (.begin link) .done

def countEnqueue (key : RateKey) (link : Link) : Ingest (Except SqlxError Int) :=
  .call (.countEnqueue key link) .done

def record (row : IngestDecision) (link : Link) : Ingest (Except SqlxError Unit) := .call (.record row link) .done

def commit (link : Link) : Ingest (Except SqlxError Unit) := .call (.commit link) .done

def enqueue (env : EnqueueEnv) (job : NewJob) (link : Link) : Ingest (Except SqlxError (Outcome Uuid)) :=
  .call (.enqueue env job link) .done

end Ingest

/-! ## The checks -/

/-- What the surroundings decide while a request is checked. -/
structure GuardEnv where
  now : DateTime
  decisionId : Uuid
  decidedAt : DateTime
  begin : Link
  count : Link
  record : Link
  commit : Link

/-- The start of the minute: `now.timestamp() - now.second()`. Every clock reading has one, so `from_timestamp` does not
    fail on it. -/
def windowStart (now : DateTime) : DateTime :=
  let timestamp := now / Chrono.nanosPerSecond
  (timestamp - timestamp % 60) * Chrono.nanosPerSecond

/-- The row that `check_payload` records. -/
def payloadTooLarge (cfg : EnqueueGuardConfig) (env : GuardEnv) (queue : String) (payloadBytes : Nat) :
    IngestDecision :=
  { id := env.decisionId
    queue := queue
    decision := "DENIED"
    reasonCode := "PAYLOAD_TOO_LARGE"
    detailsJson := [("max_payload_bytes", cfg.maxPayloadBytes), ("payload_bytes", payloadBytes)]
    createdAt := env.decidedAt }

/-- The row that `check_rate` records. -/
def rateExceeded (cfg : EnqueueGuardConfig) (env : GuardEnv) (queue : String) (count : Int) : IngestDecision :=
  { id := env.decisionId
    queue := queue
    decision := "DENIED"
    reasonCode := "ENQUEUE_RATE_EXCEEDED"
    detailsJson := [("max_per_minute", cfg.maxEnqueuesPerMinutePerQueue), ("count_this_minute", count)]
    createdAt := env.decidedAt }

/-- `check_payload`. -/
def checkPayload (cfg : EnqueueGuardConfig) (env : GuardEnv) (queue : String) (payloadBytes : Nat) :
    Ingest (Except String Unit) := do
  if payloadBytes > cfg.maxPayloadBytes then
    match ← Ingest.record (payloadTooLarge cfg env queue payloadBytes) env.record with
    | .error e => return .error e.message
    | .ok () => return .error "PAYLOAD_TOO_LARGE"
  else return .ok ()

/-- `check_rate`. A `?` that fails drops the transaction, which the end of the call rolls back. -/
def checkRate (cfg : EnqueueGuardConfig) (env : GuardEnv) (queue : String) : Ingest (Except String Unit) := do
  match ← Ingest.begin env.begin with
  | .error e => return .error e.message
  | .ok () =>
      match ← Ingest.countEnqueue (queue, windowStart env.now) env.count with
      | .error e => return .error e.message
      | .ok count =>
          if count > cfg.maxEnqueuesPerMinutePerQueue then
            match ← Ingest.record (rateExceeded cfg env queue count) env.record with
            | .error e => return .error e.message
            | .ok () =>
                match ← Ingest.commit env.commit with
                | .error e => return .error e.message
                | .ok () => return .error "ENQUEUE_RATE_EXCEEDED"
          else
            match ← Ingest.commit env.commit with
            | .error e => return .error e.message
            | .ok () => return .ok ()

end Azums.Postgres
