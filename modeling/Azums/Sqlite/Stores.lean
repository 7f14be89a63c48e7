import Azums.Memory.Atomicity
import Azums.Memory.Numbering
import Azums.Sqlite.Rows

/-!
# `Sqlite.Stores` — the two stores side by side, one call on one job

`SameStores` says that the tables and the maps of the memory backend hold the same jobs and the same attempts. This
module takes the calls that touch one job: an enqueue, the start of an attempt, a heartbeat, the three
acknowledgements. From stores that are the same, each returns the same answer in both backends and leaves stores that
are the same (`Simulates`).

The checks differ in their form and in their order. SQLite counts the rows a `WHERE` selects, where the memory backend
looks under the key; `leased_iff` and `hasAttempt_iff` say that they find the same. SQLite writes before its second
check and rolls back, where the memory backend checks first and then writes.
-/

namespace Azums.Sqlite

open Function (update)
open Memory (InnerState MemoryAttempt Enumerates Numbered attemptCount Leased HasAttempt HasRoom NextInRange)

/-- The attempt that a row stores. -/
def AttemptRow.attempt (a : AttemptRow) : MemoryAttempt :=
  { id := a.id
    datasetId := a.datasetId
    jobId := a.jobId
    attemptNo := a.attemptNo
    status := a.status
    workerId := a.workerId
    startedAt := a.startedAt
    finishedAt := a.finishedAt
    latencyMs := a.latencyMs
    errorCode := a.errorCode
    errorMessage := a.errorMessage }

/-- The two stores hold the same jobs and the same attempts. -/
structure SameStores (db : Db) (s : InnerState) : Prop where
  jobs : s.jobs = db.jobs.lookup (·.id)
  attempts : s.attempts = Option.map AttemptRow.attempt ∘ db.attempts.lookup (·.id)

/-- Two calls give the same answer: the same value, or an error each. -/
inductive Agree {α : Type} : Outcome α → Outcome α → Prop where
  | ok (a : α) : Agree (.ok a) (.ok a)
  | err (message message' : String) : Agree (.err message) (.err message')

/-- Two calls give the same answer and leave the same stores. -/
structure Simulates {α : Type} (r : Outcome α × Db) (r' : Outcome α × InnerState) : Prop where
  answer : Agree r.1 r'.1
  stores : SameStores r.2 r'.2

variable {texts : Texts} {db : Db} {s : InnerState} {now : DateTime}

theorem SameStores.empty : SameStores Db.empty InnerState.init := ⟨rfl, rfl⟩

/-- Only the jobs and the attempts of the memory backend matter. -/
theorem SameStores.congr {s' : InnerState} (h : SameStores db s) (hjobs : s'.jobs = s.jobs)
    (hattempts : s'.attempts = s.attempts) : SameStores db s' :=
  ⟨hjobs.trans h.jobs, hattempts.trans h.attempts⟩

/-- Two errors that leave the stores alone. -/
theorem SameStores.refuse {α : Type} (h : SameStores db s) (message message' : String) :
    Simulates (α := α) (.err message, db) (.err message', s) :=
  ⟨.err message message', h⟩

/-- A transaction that ends in a value commits. -/
theorem Simulates.transaction {α : Type} {r : Outcome α × Db} {a : α} {s' : InnerState}
    (h : Simulates r (.ok a, s')) : Simulates (Sqlite.transaction db r) (.ok a, s') := by
  obtain ⟨outcome, db'⟩ := r
  obtain ⟨hanswer, hstores⟩ := h
  cases hanswer
  exact ⟨.ok a, hstores⟩

/-! ## Rows and entries -/

namespace SameStores

theorem job_iff (h : SameStores db s) {r : Job} : r ∈ db.jobs.rows ↔ s.jobs r.id = some r := by
  rw [h.jobs]
  constructor
  · exact Table.lookup_of_mem (jobIds db)
  · intro hr
    exact (Table.lookup_some hr).1

/-- What an iteration over the job map yields are the rows. -/
theorem mem_enumerated (h : SameStores db s) {order : List Uuid} (ho : Enumerates s.jobs order) {r : Job} :
    r ∈ order.filterMap s.jobs ↔ r ∈ db.jobs.rows := by
  constructor
  · intro hr
    obtain ⟨id, _, hid⟩ := List.mem_filterMap.mp hr
    rw [h.jobs] at hid
    exact (Table.lookup_some hid).1
  · intro hr
    have hjob := h.job_iff.mp hr
    exact List.mem_filterMap.mpr ⟨r.id, (ho.complete _).mpr (by rw [hjob]; rfl), hjob⟩

theorem attempt_of_row (h : SameStores db s) {a : AttemptRow} (ha : a ∈ db.attempts.rows) :
    s.attempts a.id = some a.attempt := by
  rw [h.attempts, Function.comp_apply, Table.lookup_of_mem (attemptIds db) ha, Option.map_some]

theorem row_of_attempt (h : SameStores db s) {id : Uuid} {att : MemoryAttempt} (hatt : s.attempts id = some att) :
    ∃ a ∈ db.attempts.rows, db.attempts.lookup (·.id) id = some a ∧ a.id = id ∧ a.attempt = att := by
  rw [h.attempts] at hatt
  obtain ⟨a, ha, rfl⟩ := Option.map_eq_some_iff.mp hatt
  obtain ⟨hmem, hid⟩ := Table.lookup_some ha
  exact ⟨a, hmem, ha, hid, rfl⟩

theorem attempt_none (h : SameStores db s) {id : Uuid} (hatt : s.attempts id = none) :
    db.attempts.lookup (·.id) id = none := by
  rw [h.attempts] at hatt
  exact Option.map_eq_none_iff.mp hatt

theorem keyed (h : SameStores db s) : Memory.Keyed s := by
  intro a att hatt
  obtain ⟨r, _, _, hid, rfl⟩ := h.row_of_attempt hatt
  exact hid

/-! ### The same write to both stores -/

/-- One job, which the `WHERE` of an update finds by its id. -/
theorem updateJob (h : SameStores db s) {jobId : Uuid} {job : Job} {p : Job → Bool} {f : Table.Assign jobKey}
    (hjob : s.jobs jobId = some job) (hp : ∀ r, p r = true → r.id = jobId) (hpjob : p job = true)
    {s' : InnerState} (hjobs : s'.jobs = update s.jobs jobId (some (f.set job)))
    (hattempts : s'.attempts = s.attempts) : SameStores { db with jobs := db.jobs.update p f } s' := by
  refine ⟨?_, hattempts.trans h.attempts⟩
  have hkey : ∀ r, (f.set r).id = r.id := fun r => congrArg JobKey.id (f.keeps r)
  rw [h.jobs] at hjob hjobs
  rw [hjobs, Table.lookup_update_one hkey hp hjob hpjob]

/-- One attempt. -/
theorem updateAttempt (h : SameStores db s) {a : AttemptRow} {p : AttemptRow → Bool}
    {f : Table.Assign AttemptRow.id} (ha : a ∈ db.attempts.rows) (hp : ∀ r, p r = true → r.id = a.id)
    (hpa : p a = true) {s' : InnerState} (hjobs : s'.jobs = s.jobs)
    (hattempts : s'.attempts = update s.attempts a.id (some (f.set a).attempt)) :
    SameStores { db with attempts := db.attempts.update p f } s' := by
  refine ⟨hjobs.trans h.jobs, ?_⟩
  have hfound := Table.lookup_of_mem (attemptIds db) ha
  rw [hattempts, h.attempts, Table.lookup_update_one f.keeps hp hfound hpa, Function.comp_update, Option.map_some]

/-- A new job. -/
theorem insertJob (h : SameStores db s) {db' : Db} {row : Job} (hnew : s.jobs row.id = none)
    (hins : Sqlite.insertJob db row = some db') {s' : InnerState}
    (hjobs : s'.jobs = update s.jobs row.id (some row)) (hattempts : s'.attempts = s.attempts) :
    SameStores db' s' := by
  unfold Sqlite.insertJob at hins
  split at hins
  · cases hins
    refine ⟨?_, hattempts.trans h.attempts⟩
    rw [h.jobs] at hnew hjobs
    rw [hjobs, Table.lookup_insert_new hnew]
  · cases hins

end SameStores

/-! ## Enqueue -/

/-- Both backends find the same job under an idempotency key: there is at most one. -/
theorem findByKey_eq (h : SameStores db s) {order : List Uuid} (ho : Enumerates s.jobs order) (key : String) :
    Memory.findByKey s order key = db.jobs.rows.find? (fun r => r.idempotencyKey == some key) := by
  unfold Memory.findByKey
  cases hfind : db.jobs.rows.find? (fun r => r.idempotencyKey == some key) with
  | none =>
      rw [List.find?_eq_none] at hfind ⊢
      intro r hr
      exact hfind r ((h.mem_enumerated ho).mp hr)
  | some r =>
      have hr := List.mem_of_find?_eq_some hfind
      have hkey := List.find?_some hfind
      cases hfound : (order.filterMap s.jobs).find? (fun existing => existing.idempotencyKey == some key) with
      | none => exact absurd hkey (List.find?_eq_none.mp hfound r ((h.mem_enumerated ho).mpr hr))
      | some r' =>
          have hr' := (h.mem_enumerated ho).mp (List.mem_of_find?_eq_some hfound)
          have hkey' := List.find?_some hfound
          rw [beq_iff_eq] at hkey hkey'
          rw [eq_of_idempotencyKey hr' hr hkey' hkey]

theorem enqueue_simulates (h : SameStores db s) {newId : Uuid} (hnew : s.jobs newId = none) {order : List Uuid}
    (ho : Enumerates s.jobs order) (job : NewJob) :
    Simulates (enqueueInTx db now newId job) (Memory.enqueue s now newId order job) := by
  have hfind : job.idempotencyKey.bind (Memory.findByKey s order) = job.idempotencyKey.bind
      (fun key => db.jobs.rows.find? (fun r => r.idempotencyKey == some key)) := by
    cases job.idempotencyKey with
    | none => rfl
    | some key => exact findByKey_eq h ho key
  unfold enqueueInTx Memory.enqueue
  rw [hfind]
  cases hexisting : job.idempotencyKey.bind
      (fun key => db.jobs.rows.find? (fun r => r.idempotencyKey == some key)) with
  | some existing => exact ⟨.ok _, h⟩
  | none =>
      have hid : db.jobs.lookup (·.id) newId = none := by rw [← h.jobs]; exact hnew
      obtain ⟨hvalid, hins⟩ := insertJob_some (newRow now newId job) hid fun key hkey r hr => by
        have hkey' : job.idempotencyKey = some key := hkey
        rw [hkey', Option.bind_some, List.find?_eq_none] at hexisting
        simpa using hexisting r hr
      simp only [hins]
      exact ⟨.ok _, h.insertJob hnew hins rfl rfl⟩

/-! ## Lease holders -/

theorem heldRow_iff {jobId : Uuid} {workerId : String} {r : Job} : heldRow jobId workerId r = true ↔
    r.id = jobId ∧ r.status = "running" ∧ r.lockedBy = some workerId := by
  simp only [heldRow, Bool.and_eq_true, beq_iff_eq, and_assoc]

theorem heldRow_id {jobId : Uuid} {workerId : String} (r : Job) (h : heldRow jobId workerId r = true) : r.id = jobId :=
  (heldRow_iff.mp h).1

/-- A held job, as the `WHERE` finds it. -/
theorem SameStores.held_iff (h : SameStores db s) {jobId : Uuid} {workerId : String} {job : Job} :
    db.jobs.lookup (·.id) jobId = some job ∧ heldRow jobId workerId job = true ↔
      s.jobs jobId = some job ∧ job.status = "running" ∧ job.lockedBy = some workerId := by
  rw [h.jobs, heldRow_iff]
  constructor
  · rintro ⟨hjob, _, hheld⟩
    exact ⟨hjob, hheld⟩
  · rintro ⟨hjob, hheld⟩
    exact ⟨hjob, (Table.lookup_some hjob).2, hheld⟩

/-- **The lease check.** The `WHERE` selects one row exactly if the worker holds the running job. -/
theorem leased_iff (h : SameStores db s) (jobId : Uuid) (workerId : String) :
    db.jobs.affected (heldRow jobId workerId) = 1 ↔ Leased s workerId jobId := by
  rw [Table.affected_eq_one (jobIds db) heldRow_id]
  exact exists_congr fun job => h.held_iff

/-- It selects no other. -/
theorem affected_of_not_leased (h : SameStores db s) {jobId : Uuid} {workerId : String}
    (hnot : ¬Leased s workerId jobId) : db.jobs.affected (heldRow jobId workerId) = 0 := by
  rw [Table.affected_eq_zero]
  intro r hr
  by_contra hheld
  rw [Bool.not_eq_false] at hheld
  refine hnot ⟨r, h.held_iff.mp ⟨?_, hheld⟩⟩
  rw [← heldRow_id r hheld]
  exact Table.lookup_of_mem (jobIds db) hr

theorem extendLease_simulates (h : SameStores db s) (jobId : Uuid) (workerId : String) {leaseSeconds : Int}
    (hadd : (Chrono.addSeconds now leaseSeconds).isSome) :
    Simulates (extendLease db now jobId workerId leaseSeconds)
      (Memory.extendLease s now jobId workerId leaseSeconds) := by
  obtain ⟨t, ht⟩ := Option.isSome_iff_exists.mp hadd
  unfold extendLease Memory.extendLease
  simp only [ht]
  by_cases hl : Leased s workerId jobId
  · rw [(leased_iff h jobId workerId).mpr hl]
    obtain ⟨job, hjob, hst, hby⟩ := hl
    simp only [hjob, if_pos (And.intro hst hby)]
    exact ⟨.ok _, h.updateJob hjob heldRow_id (h.held_iff.mpr ⟨hjob, hst, hby⟩).2 rfl rfl⟩
  · have hzero := affected_of_not_leased h hl
    rw [hzero, Table.update_of_affected_zero hzero]
    cases hjob : s.jobs jobId with
    | none => exact ⟨.ok _, h⟩
    | some job =>
        have hguard : ¬(job.status = "running" ∧ job.lockedBy = some workerId) := fun hg => hl ⟨job, hjob, hg⟩
        simp only [if_neg hguard]
        exact ⟨.ok _, h⟩

/-! ## Starting an attempt -/

/-- **The attempt counter.** The largest number in the table is the counter of the memory backend. -/
theorem maxAttempt_eq (h : SameStores db s) (hnum : Numbered s) (jobId : Uuid) :
    (maxAttempt db jobId).getD 0 = attemptCount s jobId := by
  have hbound : ∀ n ∈ (db.attempts.rows.filter (fun a => a.jobId == jobId)).map (·.attemptNo),
      1 ≤ n ∧ n ≤ attemptCount s jobId := by
    intro n hn
    obtain ⟨a, ha, rfl⟩ := List.mem_map.mp hn
    obtain ⟨hmem, hj⟩ := List.mem_filter.mp ha
    rw [beq_iff_eq] at hj
    have hone := hnum.bounds a.id a.attempt (h.attempt_of_row hmem)
    rwa [show a.attempt.jobId = jobId from hj] at hone
  have hcount := hnum.counter jobId
  by_cases hzero : attemptCount s jobId = 0
  · -- no number lies between 1 and 0
    have hnil : (db.attempts.rows.filter (fun a => a.jobId == jobId)).map (·.attemptNo) = [] := by
      rw [List.eq_nil_iff_forall_not_mem]
      intro n hn
      have := hbound n hn
      omega
    rw [maxAttempt, hnil, hzero]
    rfl
  · -- every number up to the counter is there, so the counter itself is
    obtain ⟨id, att, hatt, hj, hno⟩ := hnum.each jobId (attemptCount s jobId) (by omega) (le_refl _)
    obtain ⟨a, hmem, _, _, rfl⟩ := h.row_of_attempt hatt
    have hmax : maxAttempt db jobId = some (attemptCount s jobId) := by
      refine List.max?_eq_some_iff.mpr ⟨?_, fun n hn => (hbound n hn).2⟩
      rw [← hno]
      exact List.mem_map.mpr ⟨a, List.mem_filter.mpr ⟨hmem, beq_iff_eq.mpr hj⟩, rfl⟩
    rw [hmax]
    rfl

theorem startAttempt_simulates (h : SameStores db s) (hnum : Numbered s) {jobId attemptId : Uuid}
    (hnew : s.attempts attemptId = none) (hroom : HasRoom s jobId) (workerId : String) :
    Simulates (startAttemptsBatch db now [(jobId, attemptId)] workerId)
      (Memory.startAttemptsBatch s now [(jobId, attemptId)] workerId) := by
  unfold startAttemptsBatch Memory.startAttemptsBatch
  by_cases hl : Leased s workerId jobId
  · have hone := (leased_iff h jobId workerId).mpr hl
    obtain ⟨job, hjob, hst, hby⟩ := hl
    have hguard : ¬(job.status ≠ "running" ∨ job.lockedBy ≠ some workerId) := by simp [hst, hby]
    have hlookup := h.attempt_none hnew
    obtain ⟨hvalid, hins⟩ := insertAttempt_some
      (startedRow now attemptId jobId ((maxAttempt db jobId).getD 0 + 1) workerId) hlookup
    have hno : (s.attemptCounts jobId).getD 0 = (maxAttempt db jobId).getD 0 := (maxAttempt_eq h hnum jobId).symm
    rw [HasRoom, hno] at hroom
    simp only [startEach, Memory.startEach, hone, ne_eq, not_true_eq_false, if_false, hjob, if_neg hguard, hno, succI32,
      if_pos hroom, hins, transaction]
    refine ⟨.ok _, h.jobs, ?_⟩
    rw [Table.lookup_insert_new hlookup, Function.comp_update, ← h.attempts]
    rfl
  · have hne : db.jobs.affected (heldRow jobId workerId) ≠ 1 := fun hone => hl ((leased_iff h jobId workerId).mp hone)
    obtain ⟨message, hrefused⟩ := Memory.startEach_refused now attemptId [] hl
    simp only [startEach, if_pos hne, hrefused, transaction]
    exact h.refuse _ _

/-! ## Acknowledgement -/

theorem openRow_iff {attemptId jobId : Uuid} {a : AttemptRow} : openRow attemptId jobId a = true ↔
    a.id = attemptId ∧ a.jobId = jobId ∧ a.status = "running" := by
  simp only [openRow, Bool.and_eq_true, beq_iff_eq, and_assoc]

theorem openRow_id {attemptId jobId : Uuid} (a : AttemptRow) (h : openRow attemptId jobId a = true) :
    a.id = attemptId :=
  (openRow_iff.mp h).1

/-- **The attempt check.** The `WHERE` selects one row exactly if the attempt is a running one of the job. -/
theorem hasAttempt_iff (h : SameStores db s) (attemptId jobId : Uuid) :
    db.attempts.affected (openRow attemptId jobId) = 1 ↔ HasAttempt s attemptId jobId := by
  rw [Table.affected_eq_one (attemptIds db) openRow_id]
  constructor
  · rintro ⟨a, ha, hopen⟩
    obtain ⟨hid, hj, hst⟩ := openRow_iff.mp hopen
    exact ⟨a.attempt, hid ▸ h.attempt_of_row (Table.lookup_some ha).1, hst, hj⟩
  · rintro ⟨att, hatt, hst, hj⟩
    obtain ⟨a, _, ha, hid, rfl⟩ := h.row_of_attempt hatt
    exact ⟨a, ha, openRow_iff.mpr ⟨hid, hj, hst⟩⟩

/-- The writes of an acknowledgement that both backends accept: the attempt is closed, and the job changed. -/
theorem acknowledge_stores (h : SameStores db s) {jobId attemptId : Uuid} {workerId : String} {job : Job}
    {att : MemoryAttempt} (hjob : s.jobs jobId = some job) (hst : job.status = "running")
    (hby : job.lockedBy = some workerId) (hatt : s.attempts attemptId = some att) (hrun : att.status = "running")
    (hj : att.jobId = jobId) (set : Table.Assign jobKey) (close : Table.Assign AttemptRow.id)
    (closed : MemoryAttempt → MemoryAttempt) (hclose : ∀ a, (close.set a).attempt = closed a.attempt) :
    SameStores { jobs := db.jobs.update (heldRow jobId workerId) set
                 attempts := db.attempts.update (openRow attemptId jobId) close }
      ((s.setAttempt attemptId (closed att)).setJob jobId (set.set job)) := by
  obtain ⟨a, hmem, _, rfl, rfl⟩ := h.row_of_attempt hatt
  have hopen : openRow a.id jobId a = true := openRow_iff.mpr ⟨rfl, hj, hrun⟩
  have hattempt : SameStores { db with attempts := db.attempts.update (openRow a.id jobId) close }
      (s.setAttempt a.id (closed a.attempt)) :=
    h.updateAttempt hmem openRow_id hopen rfl (by rw [hclose]; rfl)
  exact hattempt.updateJob hjob heldRow_id (h.held_iff.mpr ⟨hjob, hst, hby⟩).2 rfl rfl

/-- An acknowledgement that one of the checks refuses is rolled back. -/
theorem failWith_refused (h : SameStores db s) {jobId attemptId : Uuid} {workerId : String}
    (hnot : ¬(Leased s workerId jobId ∧ HasAttempt s attemptId jobId)) (latencyMs : Int)
    (errorCode errorMessage target : String) (set : Table.Assign jobKey) :
    ∃ message, failWith db now jobId attemptId workerId latencyMs errorCode errorMessage target set =
      (.err message, db) := by
  unfold failWith
  by_cases ha : HasAttempt s attemptId jobId
  · have hone := (hasAttempt_iff h attemptId jobId).mpr ha
    have hne : db.jobs.affected (heldRow jobId workerId) ≠ 1 := by
      rw [ne_eq, leased_iff h]
      exact fun hl => hnot ⟨hl, ha⟩
    exact ⟨leaseError target jobId workerId, by simp [transaction, hone, hne]⟩
  · have hne : db.attempts.affected (openRow attemptId jobId) ≠ 1 := by
      rw [ne_eq, hasAttempt_iff h]
      exact ha
    exact ⟨attemptError "fail" attemptId jobId, by simp [transaction, hne]⟩

/-- An acknowledgement that both checks accept. -/
theorem failWith_accepted (h : SameStores db s) {jobId attemptId : Uuid} {workerId : String}
    (hl : Leased s workerId jobId) (ha : HasAttempt s attemptId jobId) (latencyMs : Int)
    (errorCode errorMessage target : String) (set : Table.Assign jobKey) :
    failWith db now jobId attemptId workerId latencyMs errorCode errorMessage target set =
      (.ok (), { jobs := db.jobs.update (heldRow jobId workerId) set
                 attempts := db.attempts.update (openRow attemptId jobId)
                  { set := failedRow now latencyMs errorCode errorMessage } }) := by
  have hone := (hasAttempt_iff h attemptId jobId).mpr ha
  have hone' := (leased_iff h jobId workerId).mpr hl
  unfold failWith
  simp [transaction, hone, hone']

/-- The same acknowledgement in both backends, where the memory backend's is the call with the result `r`. -/
theorem failWith_simulates (h : SameStores db s) {jobId attemptId : Uuid} {workerId : String} {latencyMs : Int}
    {errorCode errorMessage : String} (target : String) (set : Table.Assign jobKey) {r : Outcome Unit × InnerState}
    (hr : (¬(Leased s workerId jobId ∧ HasAttempt s attemptId jobId) ∧ ∃ e, r = (.err e, s)) ∨
      ∃ job att, (s.jobs jobId = some job ∧ job.status = "running" ∧ job.lockedBy = some workerId) ∧
        (s.attempts attemptId = some att ∧ att.status = "running" ∧ att.jobId = jobId) ∧ r.1 = .ok () ∧
        r.2.jobs = update s.jobs jobId (some (set.set job)) ∧ r.2.attempts = update s.attempts attemptId
          (some (Memory.failedAttempt now latencyMs errorCode errorMessage att))) :
    Simulates (failWith db now jobId attemptId workerId latencyMs errorCode errorMessage target set) r := by
  rcases hr with ⟨hnot, e, rfl⟩ | ⟨job, att, hheld, ⟨hatt, hrun, hj⟩, hok, hjobs, hattempts⟩
  · obtain ⟨message, hrefused⟩ := failWith_refused h hnot latencyMs errorCode errorMessage target set
    rw [hrefused]
    exact h.refuse _ _
  · rw [failWith_accepted h ⟨job, hheld⟩ ⟨att, hatt, hrun, hj⟩]
    constructor
    · rw [hok]
      exact .ok _
    · obtain ⟨hjob, hst, hby⟩ := hheld
      exact (acknowledge_stores h hjob hst hby hatt hrun hj set
        { set := failedRow now latencyMs errorCode errorMessage }
        (Memory.failedAttempt now latencyMs errorCode errorMessage) fun _ => rfl).congr hjobs hattempts

theorem rescheduleForRetry_simulates (h : SameStores db s) (jobId attemptId : Uuid) (workerId : String)
    (latencyMs : Int) (nextRunAt : DateTime) (errorCode errorMessage : String) :
    Simulates (rescheduleForRetry db now jobId attemptId workerId latencyMs nextRunAt errorCode errorMessage)
      (Memory.rescheduleForRetry s now jobId attemptId workerId latencyMs nextRunAt errorCode errorMessage) := by
  refine failWith_simulates h "retry_wait" { set := retryRow now nextRunAt } ?_
  rcases Memory.rescheduleForRetry_cases s now jobId attemptId workerId latencyMs nextRunAt errorCode errorMessage with
    hrefused | ⟨job, att, hheld, hopen, heq⟩
  · exact Or.inl hrefused
  · exact Or.inr ⟨job, att, hheld, hopen, by rw [heq], by rw [heq]; rfl, by rw [heq]; rfl⟩

theorem markDlq_simulates (h : SameStores db s) (jobId attemptId : Uuid) (workerId : String) (latencyMs : Int)
    (reasonCode errorCode errorMessage : String) :
    Simulates (markDlq db now jobId attemptId workerId latencyMs reasonCode errorCode errorMessage)
      (Memory.markDlq s now jobId attemptId workerId latencyMs reasonCode errorCode errorMessage) := by
  refine failWith_simulates h "dlq" { set := deadRow now reasonCode } ?_
  rcases Memory.markDlq_cases s now jobId attemptId workerId latencyMs reasonCode errorCode errorMessage with
    hrefused | ⟨job, att, hheld, hopen, heq⟩
  · exact Or.inl hrefused
  · exact Or.inr ⟨job, att, hheld, hopen, by rw [heq], by rw [heq]; rfl, by rw [heq]; rfl⟩

/-! ### Completion -/

/-- Both backends make the same next occurrence of a completed job. -/
theorem nextRow_eq {r : Job} (hds : r.datasetId = "default") (nextId : Uuid) (interval : Int) :
    nextRow now nextId (completedRow now r) interval = Memory.nextOccurrence now nextId r interval := by
  unfold nextRow Memory.nextOccurrence
  show (Chrono.addSeconds r.runAt interval).bind _ = _
  cases Chrono.addSeconds r.runAt interval with
  | none => rfl
  | some runAt =>
      show (shiftDeadline interval r.deadlineAt).bind _ = _
      cases hd : r.deadlineAt with
      | none => simp [shiftDeadline, completedRow, hds, hd]
      | some deadline =>
          cases hadd : Chrono.addSeconds deadline interval with
          | none => simp [shiftDeadline, hadd]
          | some d => simp [shiftDeadline, completedRow, hds, hadd]

/-- The memory backend computes the next occurrence before its checks, from the job that SQLite completes first. -/
theorem recurringJob_cases (hok : RowsOk texts db) (h : SameStores db s) {r : Job} {nextId : Uuid} {next : Option Job}
    (hjob : s.jobs r.id = some r) (hrec : Memory.recurringJob s now nextId r.id = some next) :
    r.recurringIntervalSeconds = none ∧ next = none ∨ ∃ interval row, r.recurringIntervalSeconds = some interval ∧
      next = some row ∧ nextRow now nextId (completedRow now r) (max interval 1) = some row := by
  have hr := hok.jobs r (h.job_iff.mpr hjob)
  unfold Memory.recurringJob at hrec
  rw [hjob] at hrec
  cases hi : r.recurringIntervalSeconds with
  | none =>
      simp only [hi, Option.some.injEq] at hrec
      exact Or.inl ⟨rfl, hrec.symm⟩
  | some interval =>
      simp only [hi] at hrec
      obtain ⟨row, hrow, rfl⟩ := Option.map_eq_some_iff.mp hrec
      refine Or.inr ⟨interval, row, rfl, rfl, ?_⟩
      rw [max_eq_left (hr.recurring interval hi), nextRow_eq hr.datasetId, hrow]

theorem nextRow_spec {nextId : Uuid} {completed row : Job} {interval : Int}
    (h : nextRow now nextId completed interval = some row) : row.id = nextId ∧ row.idempotencyKey = none := by
  unfold nextRow at h
  simp only [bind, Option.bind_eq_some_iff, pure, Option.some.injEq] at h
  obtain ⟨runAt, _, deadlineAt, _, rfl⟩ := h
  exact ⟨rfl, rfl⟩

/-- The next occurrence enters both stores under its new id. -/
theorem insertNext_simulates (h : SameStores db s) {nextId : Uuid} (hnew : s.jobs nextId = none) {completed row : Job}
    {interval : Int} (hrec : completed.recurringIntervalSeconds = some interval)
    (hnext : nextRow now nextId completed (max interval 1) = some row) :
    Simulates (insertNext db now nextId completed) (.ok (), Memory.insertQueued s row) := by
  obtain ⟨hid, hkey⟩ := nextRow_spec hnext
  rw [← hid] at hnew
  have hlookup : db.jobs.lookup (·.id) row.id = none := by rw [← h.jobs]; exact hnew
  obtain ⟨hvalid, hins⟩ := insertJob_some row hlookup fun key hk => by
    rw [hkey] at hk
    cases hk
  unfold insertNext
  simp only [hrec, hnext, hins]
  exact ⟨.ok _, h.insertJob hnew hins rfl rfl⟩

/-- A completion that one of the checks refuses is rolled back. -/
theorem markSucceeded_refused (h : SameStores db s) {jobId attemptId : Uuid} {workerId : String}
    (hnot : ¬(Leased s workerId jobId ∧ HasAttempt s attemptId jobId)) (nextId : Uuid) (latencyMs : Int) :
    ∃ message, markSucceeded texts db now nextId jobId attemptId workerId latencyMs = (.err message, db) := by
  unfold markSucceeded
  by_cases ha : HasAttempt s attemptId jobId
  · have hone := (hasAttempt_iff h attemptId jobId).mpr ha
    have hfound : db.jobs.rows.find? (heldRow jobId workerId) = none := by
      rw [List.find?_eq_none]
      intro r hr hheld
      exact hnot ⟨⟨r, h.held_iff.mp ⟨heldRow_id r hheld ▸ Table.lookup_of_mem (jobIds db) hr, hheld⟩⟩, ha⟩
    exact ⟨leaseError "completed" jobId workerId, by simp [transaction, hone, hfound]⟩
  · have hne : db.attempts.affected (openRow attemptId jobId) ≠ 1 := by
      rw [ne_eq, hasAttempt_iff h]
      exact ha
    exact ⟨attemptError "complete" attemptId jobId, by simp [transaction, hne]⟩

theorem markSucceeded_simulates (h : SameStores db s) (hok : RowsOk texts db) {nextId jobId : Uuid}
    (hnew : s.jobs nextId = none) (hrange : NextInRange s jobId) (attemptId : Uuid) (workerId : String)
    (latencyMs : Int) : Simulates (markSucceeded texts db now nextId jobId attemptId workerId latencyMs)
      (Memory.markSucceeded s now nextId jobId attemptId workerId latencyMs) := by
  obtain ⟨next, hrec⟩ := Option.isSome_iff_exists.mp ((Memory.recurringJob_isSome now nextId).mpr hrange)
  rcases Memory.checks_cases s jobId attemptId workerId "completed" "complete" with
    ⟨hnot, hfails⟩ | ⟨job, att, hlease, hreq⟩
  · obtain ⟨message, hrefused⟩ := markSucceeded_refused h hnot nextId latencyMs
    rw [hrefused]
    unfold Memory.markSucceeded
    rcases hfails with ⟨e, he⟩ | ⟨job, e, hlease, he⟩
    · simp only [hrec, he]
      exact h.refuse _ _
    · simp only [hrec, hlease, he]
      exact h.refuse _ _
  · obtain ⟨hjob, hst, hby⟩ := Memory.requireLease_ok hlease
    obtain ⟨hatt, hrun, hj⟩ := Memory.requireAttempt_ok hreq
    have hone := (hasAttempt_iff h attemptId jobId).mpr ⟨att, hatt, hrun, hj⟩
    obtain ⟨hlookup, hheld⟩ := h.held_iff.mpr ⟨hjob, hst, hby⟩
    have hfound : db.jobs.rows.find? (heldRow jobId workerId) = some job := by
      rw [Table.find?_of_key (jobIds db) heldRow_id, hlookup, Option.filter_some_pos hheld]
    have hdone := acknowledge_stores h hjob hst hby hatt hrun hj { set := completedRow now }
      { set := succeededRow now latencyMs } (Memory.succeededAttempt now latencyMs) fun _ => rfl
    obtain rfl : job.id = jobId := heldRow_id job hheld
    unfold markSucceeded Memory.markSucceeded
    have hread : texts.readRow (completedRow now job) = .ok (completedRow now job) :=
      readRow_of_keeps (hok.jobs job (Table.lookup_some hlookup).1).payload
    simp only [hone, hfound, hrec, hlease, hreq, ne_eq, not_true_eq_false, if_false, Option.map_some, hread]
    rcases recurringJob_cases hok h hjob hrec with ⟨hnone, rfl⟩ | ⟨interval, row, hsome, rfl, hnext⟩
    · have hnone' : (completedRow now job).recurringIntervalSeconds = none := hnone
      simp only [insertNext, hnone', transaction]
      exact ⟨.ok _, hdone⟩
    · have hne : nextId ≠ job.id := by
        rintro rfl
        rw [hjob] at hnew
        cases hnew
      have hnew' : ((s.setAttempt attemptId (Memory.succeededAttempt now latencyMs att)).setJob job.id
          (completedRow now job)).jobs nextId = none := (Function.update_of_ne hne ..).trans hnew
      exact (insertNext_simulates hdone hnew' hsome hnext).transaction

end Azums.Sqlite
