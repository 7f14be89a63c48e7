import Azums.Lib.Table
import Azums.Core.Model
import Mathlib.Data.List.Pairwise

/-!
# `Postgres.Tables` — the database

The rows of the tables, and the constraints the migrations declare on `jobs` and `job_attempts`. `jobs` is partitioned
by `dataset_id`; its primary key is `(dataset_id, id)` and its idempotency index is unique per `dataset_id` and for
rows that have a key. Ids come from `gen_random_uuid()`, so no id occurs twice in any partition.

The mirror columns `last_error_code` and `last_error_message` of a job belong to this backend only.
-/

namespace Azums.Postgres

/-- A row of `jobs`. -/
structure JobRow extends Job where
  lastErrorCode : Option String
  lastErrorMessage : Option String
deriving DecidableEq

/-- The indexed columns of `jobs`. -/
structure JobKey where
  id : Uuid
  datasetId : String
  idempotencyKey : Option String
deriving DecidableEq

/-- The indexed columns of a row. -/
def JobRow.key (r : JobRow) : JobKey :=
  { id := r.id, datasetId := r.datasetId, idempotencyKey := r.idempotencyKey }

/-- What `jobs_idempotency_key_uq` forbids: one dataset, one key, two rows. -/
def JobKey.Conflicts (a b : JobKey) : Prop :=
  a.datasetId = b.datasetId ∧ a.idempotencyKey.isSome ∧ a.idempotencyKey = b.idempotencyKey

instance (a b : JobKey) : Decidable (a.Conflicts b) := inferInstanceAs (Decidable (_ ∧ _ ∧ _))

theorem JobKey.Conflicts.symm {a b : JobKey} (h : a.Conflicts b) : b.Conflicts a := by
  obtain ⟨hds, hsome, hkey⟩ := h
  exact ⟨hds.symm, hkey ▸ hsome, hkey.symm⟩

instance : Std.Symm (fun a b : JobKey => ¬a.Conflicts b) := ⟨fun _ _ hn hc => hn hc.symm⟩

/-- The constraints of `jobs`: its ids, and `jobs_idempotency_key_uq`. -/
structure JobsConstraint (keys : List JobKey) : Prop where
  ids : (keys.map (·.id)).Nodup
  idempotencyKeyUq : keys.Pairwise (fun a b => ¬a.Conflicts b)

instance (keys : List JobKey) : Decidable (JobsConstraint keys) :=
  decidable_of_iff ((keys.map (·.id)).Nodup ∧ keys.Pairwise (fun a b => ¬a.Conflicts b))
    ⟨fun h => ⟨h.1, h.2⟩, fun h => ⟨h.ids, h.idempotencyKeyUq⟩⟩

/-- `jobs`. -/
abbrev JobsTable := Table JobRow JobRow.key JobsConstraint

/-- A row of `job_attempts`. -/
structure AttemptRow where
  id : Uuid
  datasetId : String
  jobId : Uuid
  attemptNo : Int
  status : String
  workerId : String
  startedAt : DateTime
  finishedAt : Option DateTime
  latencyMs : Option Int
  errorCode : Option String
  errorMessage : Option String
deriving DecidableEq

/-- `job_attempts`, with its primary key. -/
abbrev AttemptsTable := Table AttemptRow AttemptRow.id List.Nodup

/-- A row of `queue_policies`. -/
structure QueuePolicy where
  maxAttemptsPerMinute : Int
  maxInFlight : Int
  throttleDelayMs : Int
deriving DecidableEq

/-- A row of `policy_decisions`; `details_json` as its members. -/
structure PolicyDecision where
  id : Uuid
  datasetId : String
  jobId : Uuid
  decision : String
  reasonCode : String
  detailsJson : List (String × Value)
deriving DecidableEq

/-- The database: `queue_policies` is read by its primary key only, `policy_decisions` is a log. -/
structure Db where
  jobs : JobsTable
  attempts : AttemptsTable
  queuePolicies : String → Option QueuePolicy
  policyDecisions : List PolicyDecision

namespace JobsTable

/-- No rows. -/
def empty : JobsTable := ⟨[], ⟨List.nodup_nil, List.Pairwise.nil⟩⟩

variable {t : JobsTable}

theorem ids_nodup (t : JobsTable) : (t.rows.map (·.id)).Nodup := by
  have h := t.valid.ids
  rwa [List.map_map] at h

/-- Two rows of one id are one row. -/
theorem eq_of_id {r r' : JobRow} (hr : r ∈ t.rows) (hr' : r' ∈ t.rows) (h : r.id = r'.id) : r = r' := by
  exact List.inj_on_of_nodup_map t.ids_nodup hr hr' h

/-- Two rows with one idempotency key in one dataset are one row. -/
theorem key_eq_of_conflicts {a b : JobKey} (ha : a ∈ t.rows.map JobRow.key)
    (hb : b ∈ t.rows.map JobRow.key) (h : a.Conflicts b) : a = b := by
  by_contra hne
  exact t.valid.idempotencyKeyUq.forall ha hb hne h

end JobsTable

/-! ## PostgreSQL's types -/

/-- A value of the column type `integer`; a cast of anything else is an error. -/
def FitsInteger (n : Int) : Prop := -2 ^ 31 ≤ n ∧ n < 2 ^ 31

instance (n : Int) : Decidable (FitsInteger n) := inferInstanceAs (Decidable (_ ∧ _))

/-- A `timestamptz` holds whole microseconds, counted from 2000-01-01; the driver drops the rest. -/
def toTimestamptz (t : DateTime) : DateTime :=
  let epoch : DateTime := 946684800 * Chrono.nanosPerSecond
  epoch + (t - epoch).tdiv 1000 * 1000

end Azums.Postgres
