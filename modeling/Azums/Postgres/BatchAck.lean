import Azums.Lib.Serial
import Azums.Postgres.Acks

/-!
# `Postgres.BatchAck` — a batch of acknowledgements against one after the other

`PostgresBackend::mark_succeeded_batch` runs the two updates of `mark_succeeded` for each item of the batch, inside one
transaction. It does not go on to insert the next occurrence of a recurring job. `batch_ack_iff` says that the batch
leaves the tables that the calls one by one leave exactly when it contains no recurring job.

The comparison is between whole calls with nobody else at the database, so the transactions are read through
`Lib.Serial`: `At` is the database between two calls, `InTx` the database inside one.
-/

namespace Azums.Postgres

/-! ## The two ways to acknowledge -/

/-- `mark_succeeded_batch`, by a client with nobody else at the database. -/
def batchAck (i : ClientId) (now : DateTime) (datasetId : String) (updates : List Completion) (workerId : String)
    (s : Store) : Option Store :=
  (server.serve i (Tx.markSucceededBatch now datasetId updates workerId) s).map (·.2)

/-- `mark_succeeded` for each item, in order, each in its own surroundings. -/
def sequentialAck (i : ClientId) (workerId : String) : List (Tx.SuccessEnv × Completion) → Store → Option Store
  | [], s => some s
  | (env, jobId, attemptId, latencyMs) :: rest, s =>
      (server.serve i (Tx.markSucceeded env jobId attemptId workerId latencyMs) s).bind
        (fun answer => sequentialAck i workerId rest answer.2)

/-! ## Tables, between calls and inside one -/

/-- The rows of `jobs` and `job_attempts`. -/
structure Tables where
  jobs : List JobRow
  attempts : List AttemptRow

/-- The rows of a database. -/
def Db.tables (db : Db) : Tables := { jobs := db.jobs.rows, attempts := db.attempts.rows }

/-- The database holds these tables, and no transaction is open. -/
structure At (T : Tables) (s : Store) : Prop where
  quietJobs : s.jobs.Quiet
  quietAttempts : s.attempts.Quiet
  jobs : s.jobs.committedRows = T.jobs
  attempts : s.attempts.committedRows = T.attempts
  keys : s.jobs.keys = T.jobs.map (·.id)

/-- The one open transaction, of client `i`, sees the tables `T`; `C` is committed. -/
structure InTx (i : ClientId) (C T : Tables) (s : Store) : Prop where
  soloJobs : s.jobs.Solo i
  soloAttempts : s.attempts.Solo i
  jobs : s.jobs.rows i = T.jobs
  attempts : s.attempts.rows i = T.attempts
  committedJobs : s.jobs.committedRows = C.jobs
  committedAttempts : s.attempts.committedRows = C.attempts
  keys : s.jobs.keys = T.jobs.map (·.id)

variable {i : ClientId} {C T : Tables} {s : Store}

theorem ofDb_at (db : Db) : At db.tables (Store.ofDb db) where
  quietJobs := Versions.ofRows_quiet _
  quietAttempts := Versions.ofRows_quiet _
  jobs := Versions.committedRows_ofRows db.jobs.ids_nodup
  attempts := Versions.committedRows_ofRows db.attempts.valid
  keys := rfl

theorem At.inTx (h : At T s) (i : ClientId) : InTx i T T s where
  soloJobs := h.quietJobs.solo i
  soloAttempts := h.quietAttempts.solo i
  jobs := (h.quietJobs.rows i).trans h.jobs
  attempts := (h.quietAttempts.rows i).trans h.attempts
  committedJobs := h.jobs
  committedAttempts := h.attempts
  keys := h.keys

theorem InTx.commit (h : InTx i C T s) : At T (s.commit i) := by
  obtain ⟨hquiet, hkeys, hrows⟩ := h.soloJobs.commit
  obtain ⟨hquiet', _, hrows'⟩ := h.soloAttempts.commit
  exact ⟨hquiet, hquiet', hrows.trans h.jobs, hrows'.trans h.attempts, hkeys.trans h.keys⟩

/-- A transaction that inserted no job leaves nothing behind when it rolls back. -/
theorem InTx.rollback (h : InTx i C T s) (hids : T.jobs.map (·.id) = C.jobs.map (·.id)) : At C (s.rollback i) := by
  obtain ⟨hquiet, hkeys, hrows⟩ := h.soloJobs.rollback
  obtain ⟨hquiet', _, hrows'⟩ := h.soloAttempts.rollback
  exact ⟨hquiet, hquiet', hrows.trans h.committedJobs, hrows'.trans h.committedAttempts,
    hkeys.trans (h.keys.trans hids)⟩

/-! ### Statements -/

theorem InTx.updateJobs (h : InTx i C T s) (p : JobRow → Bool) (f : Table.Assign JobRow.rowId) :
    ∃ s', (Stmt.updateJobs p f).exec i s = some ((T.jobs.filter p).map f.set, s') ∧
      InTx i C { T with jobs := T.jobs.map (fun r => if p r then f.set r else r) } s' := by
  obtain ⟨v', hupd, hsolo, hkeys, hrows, hcom⟩ := h.soloJobs.update p f
  rw [h.jobs] at hupd hrows
  refine ⟨{ s with jobs := v' }, ?_, hsolo, h.soloAttempts, hrows, h.attempts, hcom.trans h.committedJobs,
    h.committedAttempts, ?_⟩
  · rw [Stmt.exec, hupd]
    rfl
  · rw [hkeys, h.keys]
    exact (Table.map_index p f T.jobs).symm

theorem InTx.updateAttempts (h : InTx i C T s) (p : AttemptRow → Bool) (f : Table.Assign AttemptRow.id) :
    ∃ s', (Stmt.updateAttempts p (fun _ => true) f).exec i s =
        some (.ok (T.attempts.filter p).length, s') ∧
      InTx i C { T with attempts := T.attempts.map (fun r => if p r then f.set r else r) } s' := by
  obtain ⟨v', hupd, hsolo, hkeys, hrows, hcom⟩ := h.soloAttempts.update p f
  rw [h.attempts] at hupd hrows
  refine ⟨{ s with attempts := v' }, ?_, h.soloJobs, hsolo, h.jobs, hrows, h.committedJobs,
    hcom.trans h.committedAttempts, h.keys⟩
  have hfits : ((s.attempts.rows i).filter p).all (fun _ => true) = true := List.all_eq_true.mpr fun _ _ => rfl
  rw [Stmt.exec]
  simp only [hfits, if_true, hupd, Option.map_some, List.length_map]

theorem InTx.insertJob (h : InTx i C T s) (row : JobRow) (hnew : row.id ∉ T.jobs.map (·.id)) :
    ∃ s', (Stmt.insertJob row).exec i s = some ((), s') ∧ InTx i C { T with jobs := T.jobs ++ [row] } s' := by
  rw [← h.keys] at hnew
  obtain ⟨v', hins, hsolo, hkeys, hrows, hcom⟩ := h.soloJobs.insert hnew
  rw [h.jobs] at hrows
  refine ⟨{ s with jobs := v' }, ?_, hsolo, h.soloAttempts, hrows, h.attempts, hcom.trans h.committedJobs,
    h.committedAttempts, ?_⟩
  · rw [Stmt.exec, hins]
    rfl
  · rw [hkeys, h.keys, List.map_append]
    rfl

/-! ## One acknowledgement -/

/-- The job is running under the worker in the dataset, with this running attempt. -/
structure Ackable (T : Tables) (datasetId workerId : String) (u : Completion) : Prop where
  job : ∃ r ∈ T.jobs, r.id = u.1 ∧ r.datasetId = datasetId ∧ r.status = "running" ∧ r.lockedBy = some workerId
  attempt : ∃ a ∈ T.attempts, a.id = u.2.1 ∧ a.jobId = u.1 ∧ a.status = "running" ∧ a.datasetId = datasetId

/-- The primary keys. -/
structure Tables.Keys (T : Tables) : Prop where
  jobs : (T.jobs.map (·.id)).Nodup
  attempts : (T.attempts.map (·.id)).Nodup

/-- The tables after one acknowledgement, next occurrence apart. -/
def Tables.ack (T : Tables) (now : DateTime) (workerId : String) (u : Completion) : Tables where
  jobs := T.jobs.map (fun r => if heldRow u.1 workerId r then Tx.succeededRow now r else r)
  attempts := T.attempts.map (fun a => if Tx.openAttempt u.2.1 u.1 a then Tx.succeededAttempt now u.2.2 a else a)

variable {datasetId workerId : String} {now : DateTime} {u u' : Completion}

theorem heldRow_iff {r : JobRow} {jobId : Uuid} :
    heldRow jobId workerId r = true ↔ r.id = jobId ∧ r.status = "running" ∧ r.lockedBy = some workerId := by
  simp only [heldRow, Bool.and_eq_true, beq_iff_eq]
  constructor
  · rintro ⟨⟨hid, hby⟩, hst⟩
    exact ⟨hid, hst, hby⟩
  · rintro ⟨hid, hst, hby⟩
    exact ⟨⟨hid, hby⟩, hst⟩

theorem openAttempt_iff {a : AttemptRow} {attemptId jobId : Uuid} :
    Tx.openAttempt attemptId jobId a = true ↔ a.id = attemptId ∧ a.jobId = jobId ∧ a.status = "running" := by
  simp only [Tx.openAttempt, Bool.and_eq_true, beq_iff_eq, and_assoc]

/-- The job update of an acknowledgement selects the one row. -/
theorem Ackable.filter_jobs (h : Ackable T datasetId workerId u) (hk : T.Keys) :
    ∃ r ∈ T.jobs, r.id = u.1 ∧ r.datasetId = datasetId ∧ T.jobs.filter (heldRow u.1 workerId) = [r] := by
  obtain ⟨r, hr, hid, hds, hst, hby⟩ := h.job
  refine ⟨r, hr, hid, hds, Table.filter_eq_singleton hk.jobs hr (heldRow_iff.mpr ⟨hid, hst, hby⟩) fun x _ hx => ?_⟩
  exact (heldRow_iff.mp hx).1.trans hid.symm

theorem Ackable.filter_attempts (h : Ackable T datasetId workerId u) (hk : T.Keys) :
    ∃ a ∈ T.attempts, a.id = u.2.1 ∧ a.datasetId = datasetId ∧
      T.attempts.filter (Tx.openAttempt u.2.1 u.1) = [a] := by
  obtain ⟨a, ha, hid, hjob, hst, hds⟩ := h.attempt
  refine ⟨a, ha, hid, hds, Table.filter_eq_singleton hk.attempts ha (openAttempt_iff.mpr ⟨hid, hjob, hst⟩)
    fun x _ hx => ?_⟩
  exact (openAttempt_iff.mp hx).1.trans hid.symm

/-- The ids stay. -/
theorem Tables.ack_ids (T : Tables) (now : DateTime) (workerId : String) (u : Completion) :
    (T.ack now workerId u).jobs.map (·.id) = T.jobs.map (·.id) ∧
      (T.ack now workerId u).attempts.map (·.id) = T.attempts.map (·.id) :=
  ⟨Table.map_index (heldRow u.1 workerId) ({ set := Tx.succeededRow now } : Table.Assign JobRow.rowId) T.jobs,
    Table.map_index (Tx.openAttempt u.2.1 u.1) ({ set := Tx.succeededAttempt now u.2.2 } : Table.Assign AttemptRow.id)
      T.attempts⟩

theorem Tables.Keys.ack (h : T.Keys) (now : DateTime) (workerId : String) (u : Completion) :
    (T.ack now workerId u).Keys := by
  obtain ⟨hjobs, hattempts⟩ := T.ack_ids now workerId u
  exact ⟨hjobs ▸ h.jobs, hattempts ▸ h.attempts⟩

/-- A row of another job is not touched. -/
theorem Tables.mem_ack {r : JobRow} (h : r ∈ T.jobs) (hne : r.id ≠ u.1) : r ∈ (T.ack now workerId u).jobs := by
  refine List.mem_map.mpr ⟨r, h, if_neg fun hheld => hne (heldRow_iff.mp hheld).1⟩

/-- An acknowledgement leaves the other jobs ready for theirs. -/
theorem Ackable.ack (h : Ackable T datasetId workerId u') (hne : u'.1 ≠ u.1) (now : DateTime) :
    Ackable (T.ack now workerId u) datasetId workerId u' := by
  obtain ⟨r, hr, hid, hrest⟩ := h.job
  obtain ⟨a, ha, haid, hjob, harest⟩ := h.attempt
  refine ⟨⟨r, T.mem_ack hr (hid ▸ hne), hid, hrest⟩, ⟨a, List.mem_map.mpr ⟨a, ha, if_neg fun hopen => ?_⟩, haid,
    hjob, harest⟩⟩
  exact hne (hjob.symm.trans (openAttempt_iff.mp hopen).2.1)

/-- The dataset in a `WHERE` of the batch excludes no row that the other conditions select. -/
theorem filter_dataset {ρ : Type} {rows : List ρ} {p q : ρ → Bool} {r : ρ} (h : rows.filter p = [r]) (hq : q r = true) :
    ∀ x ∈ rows, (q x && p x) = p x := by
  intro x hx
  by_cases hp : p x = true
  · have hin : x ∈ rows.filter p := List.mem_filter.mpr ⟨hx, hp⟩
    rw [h, List.mem_singleton] at hin
    rw [hin, hq, Bool.true_and]
  · rw [Bool.not_eq_true] at hp
    rw [hp, Bool.and_false]

/-- The two statements of an acknowledgement inside a batch. -/
theorem InTx.ackOne (h : InTx i C T s) (hk : T.Keys) (ha : Ackable T datasetId workerId u) (now : DateTime)
    (rest : List Completion) :
    ∃ s', (Tx.ackEach now datasetId workerId (u :: rest)).solo (server.exec i) s =
        (Tx.ackEach now datasetId workerId rest).solo (server.exec i) s' ∧ InTx i C (T.ack now workerId u) s' := by
  obtain ⟨a, _, _, hads, hafilter⟩ := ha.filter_attempts hk
  obtain ⟨r, _, _, hrds, hrfilter⟩ := ha.filter_jobs hk
  have hattempts := filter_dataset (q := fun x : AttemptRow => x.datasetId == datasetId) hafilter (by simp [hads])
  have hjobs := filter_dataset (q := fun x : JobRow => x.datasetId == datasetId) hrfilter (by simp [hrds])
  -- the two `UPDATE`s; each selects the one row of its id, since the dataset is the right one
  obtain ⟨s₁, hexec₁, h₁⟩ := h.updateAttempts (fun x => x.datasetId == datasetId && Tx.openAttempt u.2.1 u.1 x)
    { set := Tx.succeededAttempt now u.2.2 }
  obtain ⟨s₂, hexec₂, h₂⟩ := h₁.updateJobs (fun x => x.datasetId == datasetId && heldRow u.1 workerId x)
    { set := Tx.succeededRow now }
  rw [List.filter_congr hattempts, hafilter] at hexec₁
  rw [List.filter_congr hjobs, hrfilter] at hexec₂
  refine ⟨s₂, ?_, ?_⟩
  · obtain ⟨jobId, attemptId, latencyMs⟩ := u
    rw [Tx.ackEach]
    simp only [Tx.updateAttempts, Tx.updateJobs, Prog.call_bind, Prog.done_bind]
    rw [Prog.solo_call (r := .ok 1) hexec₁]
    simp only [ne_eq, not_true_eq_false, if_false]
    have hmoved : server.exec i (.updateJobs (fun x => x.datasetId == datasetId && heldRow jobId workerId x)
        { set := Tx.succeededRow now }) s₁ = some ([Tx.succeededRow now r], s₂) := hexec₂
    rw [Prog.solo_call hmoved]
    rfl
  · have hmapA : T.attempts.map (fun x => if (x.datasetId == datasetId && Tx.openAttempt u.2.1 u.1 x) = true
        then Tx.succeededAttempt now u.2.2 x else x) = (T.ack now workerId u).attempts :=
      List.map_congr_left fun x hx => by rw [hattempts x hx]
    have hmapJ : T.jobs.map (fun x => if (x.datasetId == datasetId && heldRow u.1 workerId x) = true
        then Tx.succeededRow now x else x) = (T.ack now workerId u).jobs :=
      List.map_congr_left fun x hx => by rw [hjobs x hx]
    rw [hmapA, hmapJ] at h₂
    exact h₂

/-- **The batch.** Over jobs that are all ready, it acknowledges every one. -/
theorem ackEach_solo (now : DateTime) (updates : List Completion) :
    ∀ (T : Tables) (s : Store), InTx i C T s → T.Keys → (∀ u ∈ updates, Ackable T datasetId workerId u) →
      (updates.map (·.1)).Nodup →
      ∃ s', (Tx.ackEach now datasetId workerId updates).solo (server.exec i) s = some (.ok .unit, s') ∧
        InTx i C (updates.foldl (fun T u => T.ack now workerId u) T) s' := by
  induction updates with
  | nil => exact fun T s h _ _ _ => ⟨s, rfl, h⟩
  | cons u rest ih =>
      intro T s h hk ha hnd
      rw [List.map_cons, List.nodup_cons] at hnd
      obtain ⟨s₁, hsolo, h₁⟩ := h.ackOne hk (ha u (List.mem_cons_self ..)) now rest
      have hrest : ∀ u' ∈ rest, Ackable (T.ack now workerId u) datasetId workerId u' := by
        intro u' hu'
        refine (ha u' (List.mem_cons_of_mem _ hu')).ack (fun heq => hnd.1 ?_) now
        exact heq ▸ List.mem_map_of_mem hu'
      obtain ⟨s', hs', h'⟩ := ih _ s₁ h₁ (hk.ack now workerId u) hrest hnd.2
      exact ⟨s', hsolo.trans hs', h'⟩

theorem batchAck_at (h : At T s) (hk : T.Keys) (i : ClientId) (now : DateTime) {updates : List Completion}
    (ha : ∀ u ∈ updates, Ackable T datasetId workerId u) (hnd : (updates.map (·.1)).Nodup) :
    ∃ s', batchAck i now datasetId updates workerId s = some s' ∧
      At (updates.foldl (fun T u => T.ack now workerId u) T) s' := by
  obtain ⟨s₁, hsolo, h₁⟩ := ackEach_solo now updates T s (h.inTx i) hk ha hnd
  have hprog : (Tx.markSucceededBatch now datasetId updates workerId).solo (server.exec i) s =
      some (.ok .unit, s₁) := by
    unfold Tx.markSucceededBatch
    by_cases hempty : updates.isEmpty = true
    · rw [List.isEmpty_iff] at hempty
      subst hempty
      exact hsolo
    · rw [if_neg hempty]
      exact hsolo
  refine ⟨s₁.commit i, ?_, h₁.commit⟩
  rw [batchAck, Server.serve, hprog]
  rfl

/-! ## One after the other -/

/-- The end of `mark_succeeded` for a job that recurs: it fails, or appends one row. -/
theorem recur_solo (h : InTx i C T s) (env : Tx.SuccessEnv) (completed : JobRow) {interval : Int}
    (hinterval : completed.recurringIntervalSeconds = some interval) (hnew : env.newId ∉ T.jobs.map (·.id)) :
    (∃ outcome, (∀ a, outcome ≠ .ok a) ∧ (Tx.recur env completed).solo (server.exec i) s = some (outcome, s)) ∨
      ∃ row s', row.id = env.newId ∧ (Tx.recur env completed).solo (server.exec i) s = some (.ok .unit, s') ∧
        InTx i C { T with jobs := T.jobs ++ [row] } s' := by
  unfold Tx.recur
  simp only [hinterval]
  cases hnext : Tx.nextOccurrence completed interval with
  | none => exact Or.inl ⟨.panic, by simp, rfl⟩
  | some next =>
      cases hens : env.ensured with
      | error e => exact Or.inl ⟨.err e, by simp, rfl⟩
      | ok _ =>
          by_cases hfit : CastsFit next
          · obtain ⟨s', hexec, h'⟩ := h.insertJob
              { newRow env.now env.newId (datasetIdFor next.queue next.runAt) next with
                replayOfJobId := some completed.id } hnew
            refine Or.inr ⟨_, s', rfl, ?_, h'⟩
            have hins : server.exec i (.insertJob { newRow env.now env.newId (datasetIdFor next.queue next.runAt) next
                with replayOfJobId := some completed.id }) s = some ((), s') := hexec
            simp only [if_pos hfit, Tx.insertJob, Prog.call_bind, Prog.done_bind]
            rw [Prog.solo_call hins]
            rfl
          · refine Or.inl ⟨.err "integer out of range", by simp, ?_⟩
            simp only [if_neg hfit]
            rfl

/-- **One acknowledgement.** A job that does not recur is completed. One that recurs is completed and gets its next
    occurrence, or the call fails and leaves the tables as they were. -/
theorem markSucceeded_serve (h : At T s) (hk : T.Keys) (ha : Ackable T datasetId workerId u) (i : ClientId)
    (env : Tx.SuccessEnv) (hnew : env.newId ∉ T.jobs.map (·.id)) :
    ∃ r ∈ T.jobs, r.id = u.1 ∧ r.status = "running" ∧ ∃ outcome s',
      server.serve i (Tx.markSucceeded env u.1 u.2.1 workerId u.2.2) s = some (outcome, s') ∧
      ((r.recurringIntervalSeconds = none ∧ At (T.ack env.now workerId u) s') ∨
        (r.recurringIntervalSeconds ≠ none ∧ At T s') ∨
        (r.recurringIntervalSeconds ≠ none ∧ ∃ row, row.id = env.newId ∧
          At { T.ack env.now workerId u with jobs := (T.ack env.now workerId u).jobs ++ [row] } s')) := by
  obtain ⟨a, _, _, _, hafilter⟩ := ha.filter_attempts hk
  obtain ⟨r, hr, hid, _, hrfilter⟩ := ha.filter_jobs hk
  have hheld : r ∈ T.jobs.filter (heldRow u.1 workerId) := by rw [hrfilter]; exact List.mem_singleton_self r
  obtain ⟨_, hst, _⟩ := heldRow_iff.mp (List.mem_filter.mp hheld).2
  obtain ⟨s₁, hexec₁, h₁⟩ := (h.inTx i).updateAttempts (Tx.openAttempt u.2.1 u.1)
    { set := Tx.succeededAttempt env.now u.2.2 }
  obtain ⟨s₂, hexec₂, h₂⟩ := h₁.updateJobs (heldRow u.1 workerId) { set := Tx.succeededRow env.now }
  rw [hafilter] at hexec₁
  rw [hrfilter] at hexec₂
  -- the run up to the next occurrence
  have hrun : (Tx.markSucceeded env u.1 u.2.1 workerId u.2.2).solo (server.exec i) s =
      (Tx.recur env (Tx.succeededRow env.now r)).solo (server.exec i) s₂ := by
    have hmoved : server.exec i (.updateJobs (heldRow u.1 workerId) { set := Tx.succeededRow env.now }) s₁ =
        some ([Tx.succeededRow env.now r], s₂) := hexec₂
    unfold Tx.markSucceeded
    simp only [Tx.updateAttempts, Tx.updateJobs, Prog.call_bind, Prog.done_bind]
    rw [Prog.solo_call (r := .ok 1) hexec₁]
    simp only [ne_eq, not_true_eq_false, if_false]
    rw [Prog.solo_call hmoved]
    rfl
  have h₂' : InTx i T (T.ack env.now workerId u) s₂ := h₂
  refine ⟨r, hr, hid, hst, ?_⟩
  unfold Server.serve
  rw [hrun]
  cases hinterval : r.recurringIntervalSeconds with
  | none =>
      have hrecur : Tx.recur env (Tx.succeededRow env.now r) = .done (.ok .unit) := by
        have hnone : (Tx.succeededRow env.now r).recurringIntervalSeconds = none := hinterval
        simp only [Tx.recur, hnone, Prog.pure_eq]
      rw [hrecur]
      exact ⟨_, _, rfl, Or.inl ⟨rfl, h₂'.commit⟩⟩
  | some interval =>
      have hids := (T.ack_ids env.now workerId u).1
      rcases recur_solo h₂' env (Tx.succeededRow env.now r) hinterval (hids ▸ hnew) with
        ⟨outcome, hfail, hsolo⟩ | ⟨row, s₃, hrow, hsolo, h₃⟩
      · rw [hsolo]
        refine ⟨outcome, s₂.rollback i, ?_, Or.inr (Or.inl ⟨by simp, h₂'.rollback hids⟩)⟩
        cases outcome with
        | ok a => exact absurd rfl (hfail a)
        | err e => rfl
        | panic => rfl
      · rw [hsolo]
        exact ⟨.ok .unit, s₃.commit i, rfl, Or.inr (Or.inr ⟨by simp, row, hrow, h₃.commit⟩)⟩

/-- What acknowledging a list of items one by one needs: distinct jobs, each ready, and fresh ids. -/
structure Pending (T : Tables) (datasetId workerId : String) (calls : List (Tx.SuccessEnv × Completion)) : Prop where
  keys : T.Keys
  ackable : ∀ c ∈ calls, Ackable T datasetId workerId c.2
  distinct : (calls.map (·.2.1)).Nodup
  newIds : (calls.map (·.1.newId)).Nodup
  fresh : ∀ c ∈ calls, c.1.newId ∉ T.jobs.map (·.id)

variable {calls : List (Tx.SuccessEnv × Completion)} {env : Tx.SuccessEnv}

/-- A call that fails leaves the others pending. -/
theorem Pending.tail (h : Pending T datasetId workerId ((env, u) :: calls)) : Pending T datasetId workerId calls where
  keys := h.keys
  ackable c hc := h.ackable c (List.mem_cons_of_mem _ hc)
  distinct := (List.nodup_cons.mp h.distinct).2
  newIds := (List.nodup_cons.mp h.newIds).2
  fresh c hc := h.fresh c (List.mem_cons_of_mem _ hc)

/-- The jobs of the other calls are other jobs. -/
theorem Pending.ne (h : Pending T datasetId workerId ((env, u) :: calls)) {c : Tx.SuccessEnv × Completion}
    (hc : c ∈ calls) : c.2.1 ≠ u.1 := by
  intro heq
  refine (List.nodup_cons.mp h.distinct).1 ?_
  show u.1 ∈ calls.map (·.2.1)
  exact heq ▸ List.mem_map_of_mem (f := fun c : Tx.SuccessEnv × Completion => c.2.1) hc

/-- A call that goes through leaves the others pending. -/
theorem Pending.ack (h : Pending T datasetId workerId ((env, u) :: calls)) (now : DateTime) :
    Pending (T.ack now workerId u) datasetId workerId calls where
  keys := h.keys.ack now workerId u
  ackable c hc := (h.tail.ackable c hc).ack (h.ne hc) now
  distinct := h.tail.distinct
  newIds := h.tail.newIds
  fresh c hc := by
    rw [(T.ack_ids now workerId u).1]
    exact h.tail.fresh c hc

/-- So does one that has appended a next occurrence. -/
theorem Pending.append (h : Pending T datasetId workerId calls) {row : JobRow} (hrow : row.id ∉ T.jobs.map (·.id))
    (hnot : row.id ∉ calls.map (·.1.newId)) :
    Pending { T with jobs := T.jobs ++ [row] } datasetId workerId calls where
  keys := by
    refine ⟨?_, h.keys.attempts⟩
    rw [List.map_append]
    refine h.keys.jobs.append (List.nodup_singleton _) fun x hx hx' => ?_
    rw [List.map_singleton, List.mem_singleton] at hx'
    exact hrow (hx' ▸ hx)
  ackable c hc := by
    obtain ⟨⟨r, hr, hrest⟩, hattempt⟩ := h.ackable c hc
    exact ⟨⟨r, List.mem_append_left _ hr, hrest⟩, hattempt⟩
  distinct := h.distinct
  newIds := h.newIds
  fresh c hc hin := by
    rw [List.map_append, List.map_singleton, List.mem_append, List.mem_singleton] at hin
    rcases hin with hin | heq
    · exact h.fresh c hc hin
    · exact hnot (heq ▸ List.mem_map_of_mem (f := fun c : Tx.SuccessEnv × Completion => c.1.newId) hc)

/-- The job of this item recurs. -/
def Recurs (T : Tables) (u : Completion) : Prop :=
  ∃ r ∈ T.jobs, r.id = u.1 ∧ r.recurringIntervalSeconds ≠ none

theorem Recurs.of_ack {T : Tables} (h : Recurs (T.ack now workerId u) u') : Recurs T u' := by
  obtain ⟨r', hr', hid, hrec⟩ := h
  obtain ⟨r, hr, rfl⟩ := List.mem_map.mp hr'
  refine ⟨r, hr, ?_⟩
  by_cases hheld : heldRow u.1 workerId r = true
  · rw [if_pos hheld] at hid hrec
    exact ⟨hid, hrec⟩
  · rw [if_neg hheld] at hid hrec
    exact ⟨hid, hrec⟩

/-- Where no job recurs, each call completes its job. -/
theorem sequentialAck_plain (i : ClientId) (calls : List (Tx.SuccessEnv × Completion)) :
    ∀ (T : Tables) (s : Store), At T s → Pending T datasetId workerId calls → (∀ c ∈ calls, ¬Recurs T c.2) →
      ∃ s', sequentialAck i workerId calls s = some s' ∧
        At (calls.foldl (fun T c => T.ack c.1.now workerId c.2) T) s' := by
  induction calls with
  | nil => exact fun T s h _ _ => ⟨s, rfl, h⟩
  | cons c rest ih =>
      intro T s h hp hplain
      obtain ⟨env, u⟩ := c
      obtain ⟨r, hr, hid, _, outcome, s₁, hserve, hcases⟩ := markSucceeded_serve h hp.keys
        (hp.ackable _ (List.mem_cons_self ..)) i env (hp.fresh _ (List.mem_cons_self ..))
      have hnone : r.recurringIntervalSeconds = none := by
        by_contra hrec
        exact hplain _ (List.mem_cons_self ..) ⟨r, hr, hid, hrec⟩
      have h₁ : At (T.ack env.now workerId u) s₁ := by
        rcases hcases with ⟨_, h₁⟩ | ⟨hrec, _⟩ | ⟨hrec, _⟩
        · exact h₁
        · exact absurd hnone hrec
        · exact absurd hnone hrec
      obtain ⟨s', hs', h'⟩ := ih _ s₁ h₁ (hp.ack env.now)
        fun c hc hrec => hplain c (List.mem_cons_of_mem _ hc) hrec.of_ack
      refine ⟨s', ?_, h'⟩
      rw [sequentialAck, hserve, Option.bind_some]
      exact hs'

/-- A job that recurs shows: there are more rows than before, or it is still running. -/
theorem sequentialAck_recurring (i : ClientId) (calls : List (Tx.SuccessEnv × Completion)) :
    ∀ (T : Tables) (s : Store), At T s → Pending T datasetId workerId calls →
      ∃ s' T', sequentialAck i workerId calls s = some s' ∧ At T' s' ∧ T.jobs.length ≤ T'.jobs.length ∧
        (∀ r ∈ T.jobs, r.id ∉ calls.map (·.2.1) → r ∈ T'.jobs) ∧
        ∀ c ∈ calls, ∀ r ∈ T.jobs, r.id = c.2.1 → r.recurringIntervalSeconds ≠ none →
          T.jobs.length < T'.jobs.length ∨ (r ∈ T'.jobs ∧ r.status = "running") := by
  induction calls with
  | nil => exact fun T s h _ => ⟨s, T, rfl, h, le_refl _, fun r hr _ => hr, by simp⟩
  | cons c rest ih =>
      intro T s h hp
      obtain ⟨env, u⟩ := c
      have hfresh := hp.fresh _ (List.mem_cons_self ..)
      obtain ⟨r, hr, hid, hst, outcome, s₁, hserve, hcases⟩ := markSucceeded_serve h hp.keys
        (hp.ackable _ (List.mem_cons_self ..)) i env hfresh
      -- the row of the job of this call is `r`
      have hrow : ∀ r' ∈ T.jobs, r'.id = u.1 → r' = r :=
        fun r' hr' hid' => List.inj_on_of_nodup_map hp.keys.jobs hr' hr (hid'.trans hid.symm)
      have hnotin : u.1 ∉ rest.map (·.2.1) := (List.nodup_cons.mp hp.distinct).1
      have hstep : ∃ T₁, At T₁ s₁ ∧ Pending T₁ datasetId workerId rest ∧ T.jobs.length ≤ T₁.jobs.length ∧
          (∀ r' ∈ T.jobs, r'.id ≠ u.1 → r' ∈ T₁.jobs) ∧
          (r.recurringIntervalSeconds ≠ none → T.jobs.length < T₁.jobs.length ∨ r ∈ T₁.jobs) := by
        have hlen : (T.ack env.now workerId u).jobs.length = T.jobs.length := List.length_map _
        -- it completes and does not recur; it recurs and fails; it recurs, and the next occurrence is a new row
        rcases hcases with ⟨hnone, h₁⟩ | ⟨_, h₁⟩ | ⟨_, row, hid₁, h₁⟩
        · exact ⟨_, h₁, hp.ack env.now, hlen.ge, fun r' hr' hne => T.mem_ack hr' hne, fun hrec => absurd hnone hrec⟩
        · exact ⟨T, h₁, hp.tail, le_refl _, fun r' hr' _ => hr', fun _ => Or.inr hr⟩
        · have hrowFresh : row.id ∉ (T.ack env.now workerId u).jobs.map (·.id) := by
            rw [(T.ack_ids env.now workerId u).1, hid₁]
            exact hfresh
          have hrowNew : row.id ∉ rest.map (·.1.newId) := hid₁ ▸ (List.nodup_cons.mp hp.newIds).1
          have hgrow : ((T.ack env.now workerId u).jobs ++ [row]).length = T.jobs.length + 1 := by
            rw [List.length_append, hlen, List.length_singleton]
          refine ⟨_, h₁, (hp.ack env.now).append hrowFresh hrowNew, ?_, ?_, fun _ => Or.inl ?_⟩
          · show T.jobs.length ≤ ((T.ack env.now workerId u).jobs ++ [row]).length
            omega
          · exact fun r' hr' hne => List.mem_append_left _ (T.mem_ack hr' hne)
          · show T.jobs.length < ((T.ack env.now workerId u).jobs ++ [row]).length
            omega
      obtain ⟨T₁, h₁, hp₁, hle₁, hkeep₁, hrec₁⟩ := hstep
      obtain ⟨s', T', hs', h', hle', hkeep', hrec'⟩ := ih T₁ s₁ h₁ hp₁
      refine ⟨s', T', ?_, h', hle₁.trans hle', ?_, ?_⟩
      · rw [sequentialAck, hserve, Option.bind_some]
        exact hs'
      · intro r' hr' hnot
        rw [List.map_cons, List.mem_cons, not_or] at hnot
        exact hkeep' r' (hkeep₁ r' hr' hnot.1) hnot.2
      · intro c hc r' hr' hid' hrec
        rcases List.mem_cons.mp hc with rfl | hrest
        · obtain rfl := hrow r' hr' hid'
          rcases hrec₁ hrec with hlt | hin
          · exact Or.inl (hlt.trans_le hle')
          · exact Or.inr ⟨hkeep' r' hin (hid ▸ hnotin), hst⟩
        · have hne : r'.id ≠ u.1 := hid' ▸ hp.ne hrest
          rcases hrec' c hrest r' (hkeep₁ r' hr' hne) hid' hrec with hlt | hin
          · exact Or.inl (hle₁.trans_lt hlt)
          · exact Or.inr hin

/-! ## The comparison -/

/-- A row that was there before, up to the clocks of the calls. -/
def JobRow.upToClock (r : JobRow) : JobRow := { r with updatedAt := 0 }

/-- A job row, up to the clocks of the calls and the ids they drew. -/
def JobRow.upToFresh (known : List Uuid) (r : JobRow) : Option Uuid × JobRow :=
  if r.id ∈ known then (some r.id, r.upToClock)
  else (none, { r with id := 0, createdAt := 0, updatedAt := 0 })

/-- An attempt row, up to the clocks of the calls. -/
def AttemptRow.upToClock (a : AttemptRow) : AttemptRow := { a with finishedAt := a.finishedAt.map (fun _ => 0) }

/-- The same `jobs` and `job_attempts`, up to fresh ids and timestamps. -/
structure SameUpToFresh (known : List Uuid) (s s' : Store) : Prop where
  jobs : (s.jobs.committedRows.map (·.upToFresh known)).Perm (s'.jobs.committedRows.map (·.upToFresh known))
  attempts : (s.attempts.committedRows.map (·.upToClock)).Perm (s'.attempts.committedRows.map (·.upToClock))

/-- Tables that differ in clocks only. -/
structure SameUpToClock (T T' : Tables) : Prop where
  jobs : T.jobs.map (·.upToClock) = T'.jobs.map (·.upToClock)
  attempts : T.attempts.map (·.upToClock) = T'.attempts.map (·.upToClock)

/-- Functions that agree on rows up to `e` map lists that are equal up to `e` to such lists. -/
theorem map_eq_of_factors {ρ σ : Type} {e : ρ → σ} {f g : ρ → ρ} {h : σ → σ} {l l' : List ρ}
    (hf : ∀ r, e (f r) = h (e r)) (hg : ∀ r, e (g r) = h (e r)) (heq : l.map e = l'.map e) :
    (l.map f).map e = (l'.map g).map e := by
  calc (l.map f).map e = (l.map e).map h := by
        rw [List.map_map, List.map_map]
        exact List.map_congr_left fun r _ => hf r
    _ = (l'.map e).map h := by rw [heq]
    _ = (l'.map g).map e := by
        rw [List.map_map, List.map_map]
        exact List.map_congr_left fun r _ => (hg r).symm

/-- The clock of an acknowledgement is all that it adds. -/
theorem SameUpToClock.ack {T T' : Tables} (h : SameUpToClock T T') (now now' : DateTime) (workerId : String)
    (u : Completion) : SameUpToClock (T.ack now workerId u) (T'.ack now' workerId u) := by
  have hjob : ∀ (t : DateTime) (r : JobRow),
      (if heldRow u.1 workerId r then Tx.succeededRow t r else r).upToClock =
        (if heldRow u.1 workerId r.upToClock then (Tx.succeededRow 0 r.upToClock).upToClock else r.upToClock) := by
    intro t r
    have hheld : heldRow u.1 workerId r.upToClock = heldRow u.1 workerId r := rfl
    rw [hheld]
    split <;> rfl
  have hattempt : ∀ (t : DateTime) (a : AttemptRow),
      (if Tx.openAttempt u.2.1 u.1 a then Tx.succeededAttempt t u.2.2 a else a).upToClock =
        (if Tx.openAttempt u.2.1 u.1 a.upToClock then Tx.succeededAttempt 0 u.2.2 a.upToClock
          else a.upToClock) := by
    intro t a
    have hopen : Tx.openAttempt u.2.1 u.1 a.upToClock = Tx.openAttempt u.2.1 u.1 a := rfl
    rw [hopen]
    split <;> rfl
  constructor
  · exact map_eq_of_factors (h := fun r : JobRow =>
      if heldRow u.1 workerId r then (Tx.succeededRow 0 r).upToClock else r) (hjob now) (hjob now') h.jobs
  · exact map_eq_of_factors (h := fun a : AttemptRow =>
      if Tx.openAttempt u.2.1 u.1 a then Tx.succeededAttempt 0 u.2.2 a else a) (hattempt now) (hattempt now')
      h.attempts

/-- The batch and the calls one by one acknowledge alike. -/
theorem ack_foldl (now : DateTime) (workerId : String) (calls : List (Tx.SuccessEnv × Completion)) :
    ∀ T T' : Tables, SameUpToClock T T' →
      SameUpToClock ((calls.map (·.2)).foldl (fun T u => T.ack now workerId u) T)
        (calls.foldl (fun T c => T.ack c.1.now workerId c.2) T') := by
  induction calls with
  | nil => exact fun T T' h => h
  | cons c rest ih => exact fun T T' h => ih _ _ (h.ack now c.1.now workerId c.2)

theorem foldl_ack_ids (now : DateTime) (workerId : String) (updates : List Completion) :
    ∀ T : Tables, (updates.foldl (fun T u => T.ack now workerId u) T).jobs.map (·.id) = T.jobs.map (·.id) := by
  induction updates with
  | nil => exact fun T => rfl
  | cons u rest ih => exact fun T => (ih _).trans (T.ack_ids now workerId u).1

theorem foldl_ackEach_ids (workerId : String) (calls : List (Tx.SuccessEnv × Completion)) :
    ∀ T : Tables, (calls.foldl (fun T c => T.ack c.1.now workerId c.2) T).jobs.map (·.id) = T.jobs.map (·.id) := by
  induction calls with
  | nil => exact fun T => rfl
  | cons c rest ih => exact fun T => (ih _).trans (T.ack_ids c.1.now workerId c.2).1

/-- Where every row was known, the fresh ids do not matter. -/
theorem map_upToFresh {known : List Uuid} {rows : List JobRow} (h : rows.map (·.id) = known) :
    rows.map (·.upToFresh known) =
      (rows.map (·.upToClock)).map (fun r => (some r.id, r)) := by
  rw [List.map_map]
  refine List.map_congr_left fun r hr => ?_
  have hin : r.id ∈ known := h ▸ List.mem_map_of_mem hr
  rw [JobRow.upToFresh, if_pos hin]
  rfl

/-- Every row of the job has succeeded. -/
def Succeeded (T : Tables) (jobId : Uuid) : Prop := ∀ r ∈ T.jobs, r.id = jobId → r.status = "succeeded"

theorem Succeeded.ack {jobId : Uuid} (h : Succeeded T jobId) (now : DateTime) (workerId : String) (u : Completion) :
    Succeeded (T.ack now workerId u) jobId := by
  intro r' hr' hid
  obtain ⟨r, hr, rfl⟩ := List.mem_map.mp hr'
  by_cases hheld : heldRow u.1 workerId r = true
  · rw [if_pos hheld]
    rfl
  · rw [if_neg hheld] at hid ⊢
    exact h r hr hid

theorem Ackable.succeeded (h : Ackable T datasetId workerId u) (hk : T.Keys) (now : DateTime) :
    Succeeded (T.ack now workerId u) u.1 := by
  intro r' hr' hid
  obtain ⟨r, hr, rfl⟩ := List.mem_map.mp hr'
  obtain ⟨r₀, hr₀, hid₀, _, hst, hby⟩ := h.job
  by_cases hheld : heldRow u.1 workerId r = true
  · rw [if_pos hheld]
    rfl
  · rw [if_neg hheld] at hid
    have hsame := List.inj_on_of_nodup_map hk.jobs hr hr₀ (hid.trans hid₀.symm)
    exact absurd (heldRow_iff.mpr ⟨hid, hsame ▸ hst, hsame ▸ hby⟩) hheld

theorem foldl_keeps_succeeded (now : DateTime) (workerId : String) {jobId : Uuid} (updates : List Completion) :
    ∀ T : Tables, Succeeded T jobId → Succeeded (updates.foldl (fun T u => T.ack now workerId u) T) jobId := by
  induction updates with
  | nil => exact fun T h => h
  | cons u rest ih => exact fun T h => ih _ (h.ack now workerId u)

/-- After the batch every job of it has succeeded. -/
theorem foldl_succeeded (now : DateTime) (updates : List Completion) :
    ∀ T : Tables, T.Keys → (∀ u ∈ updates, Ackable T datasetId workerId u) → (updates.map (·.1)).Nodup →
      ∀ u ∈ updates, Succeeded (updates.foldl (fun T u => T.ack now workerId u) T) u.1 := by
  induction updates with
  | nil => exact fun T _ _ _ u hu => by cases hu
  | cons u rest ih =>
      intro T hk ha hnd u' hu'
      rw [List.map_cons, List.nodup_cons] at hnd
      rcases List.mem_cons.mp hu' with rfl | hrest
      · exact foldl_keeps_succeeded now workerId rest _ ((ha u' (List.mem_cons_self ..)).succeeded hk now)
      · refine ih _ (hk.ack now workerId u) (fun u'' hu'' => ?_) hnd.2 u' hrest
        refine (ha u'' (List.mem_cons_of_mem _ hu'')).ack (fun heq => hnd.1 ?_) now
        exact heq ▸ List.mem_map_of_mem hu''

/-- Every attempt references a row of `jobs`: `job_attempts_dataset_job_fkey`. -/
def Db.ForeignKey (db : Db) : Prop :=
  ∀ a ∈ db.attempts.rows, ∃ r ∈ db.jobs.rows, r.datasetId = a.datasetId ∧ r.id = a.jobId

/-- The worker runs the job in the dataset, with this running attempt. -/
def RunsIn (db : Db) (datasetId workerId : String) (u : Completion) : Prop :=
  LeasedIn db.jobs datasetId u.1 workerId ∧
    ∃ a ∈ db.attempts.rows, a.id = u.2.1 ∧ a.jobId = u.1 ∧ a.status = "running"

/-- The foreign key puts the attempt into the dataset of its job. -/
theorem RunsIn.ackable {db : Db} (h : RunsIn db datasetId workerId u) (hfk : db.ForeignKey) :
    Ackable db.tables datasetId workerId u := by
  obtain ⟨⟨r, hr, hds, hid, hst, hby⟩, a, ha, haid, hjob, hrun⟩ := h
  obtain ⟨r', hr', hds', hid'⟩ := hfk a ha
  have hsame : r' = r := JobsTable.eq_of_id hr' hr (hid'.trans (hjob.trans hid.symm))
  exact ⟨⟨r, hr, hid, hds, hst, hby⟩, ⟨a, ha, haid, hjob, hrun, hds'.symm.trans (hsame ▸ hds)⟩⟩

/-- The batch leaves the tables that the calls leave one by one. -/
def BatchAgrees (db : Db) (i : ClientId) (now : DateTime) (datasetId workerId : String)
    (calls : List (Tx.SuccessEnv × Completion)) : Prop :=
  ∃ s s', batchAck i now datasetId (calls.map (·.2)) workerId (Store.ofDb db) = some s ∧
    sequentialAck i workerId calls (Store.ofDb db) = some s' ∧ SameUpToFresh (db.jobs.rows.map (·.id)) s s'

/-- **A batch is its calls one by one, recurring jobs apart.** For every database, and for updates over distinct jobs
    that are all in the dataset and running under the worker with the given attempts: the batch leaves the same
    `jobs` and `job_attempts` as `mark_succeeded` for each update in order, up to fresh ids and timestamps, exactly
    when no job of the batch recurs. -/
theorem batch_ack_iff (db : Db) (i : ClientId) (now : DateTime) (datasetId workerId : String)
    (calls : List (Tx.SuccessEnv × Completion)) (hfk : db.ForeignKey)
    (hruns : ∀ c ∈ calls, RunsIn db datasetId workerId c.2) (hdistinct : (calls.map (·.2.1)).Nodup)
    (hnew : (calls.map (·.1.newId)).Nodup) (hfresh : ∀ c ∈ calls, c.1.newId ∉ db.jobs.rows.map (·.id)) :
    BatchAgrees db i now datasetId workerId calls ↔ ∀ c ∈ calls, ¬Recurs db.tables c.2 := by
  have hk : db.tables.Keys := ⟨db.jobs.ids_nodup, db.attempts.valid⟩
  have hp : Pending db.tables datasetId workerId calls :=
    ⟨hk, fun c hc => (hruns c hc).ackable hfk, hdistinct, hnew, hfresh⟩
  have hackable : ∀ u ∈ calls.map (·.2), Ackable db.tables datasetId workerId u := by
    intro u hu
    obtain ⟨c, hc, rfl⟩ := List.mem_map.mp hu
    exact hp.ackable c hc
  have hnd : ((calls.map (·.2)).map (·.1)).Nodup := by rwa [List.map_map]
  obtain ⟨s, hs, hat⟩ := batchAck_at (ofDb_at db) hk i now hackable hnd
  have hids : ((calls.map (·.2)).foldl (fun T u => T.ack now workerId u) db.tables).jobs.map (·.id) =
      db.jobs.rows.map (·.id) := foldl_ack_ids now workerId (calls.map (·.2)) db.tables
  have hids' : (calls.foldl (fun T c => T.ack c.1.now workerId c.2) db.tables).jobs.map (·.id) =
      db.jobs.rows.map (·.id) := foldl_ackEach_ids workerId calls db.tables
  constructor
  · rintro ⟨s₁, s', hs₁, hs', hsame⟩ c hc ⟨r, hr, hid, hrec⟩
    obtain rfl : s = s₁ := Option.some.inj (hs.symm.trans hs₁)
    obtain ⟨s'', T', hs'', hat', _, _, hshow⟩ := sequentialAck_recurring i calls db.tables _ (ofDb_at db) hp
    obtain rfl : s' = s'' := Option.some.inj (hs'.symm.trans hs'')
    have hperm := hsame.jobs
    rw [hat.jobs, hat'.jobs] at hperm
    rcases hshow c hc r hr hid hrec with hlt | ⟨hin, hrun⟩
    · -- the next occurrence is one row too many
      have hlen := hperm.length_eq
      have hbatch := congrArg List.length hids
      rw [List.length_map, List.length_map] at hlen hbatch
      have hlt' : db.jobs.rows.length < T'.jobs.length := hlt
      omega
    · -- the call failed, and left the job running
      have hknown : r.id ∈ db.jobs.rows.map (·.id) := List.mem_map_of_mem hr
      have hmem := hperm.mem_iff.mpr (List.mem_map_of_mem (f := (·.upToFresh (db.jobs.rows.map (·.id)))) hin)
      obtain ⟨r', hr', heq⟩ := List.mem_map.mp hmem
      have hknown' : r'.id ∈ db.jobs.rows.map (·.id) := hids ▸ List.mem_map_of_mem hr'
      rw [JobRow.upToFresh, JobRow.upToFresh, if_pos hknown, if_pos hknown', Prod.mk.injEq, Option.some.injEq] at heq
      have hdone := foldl_succeeded now _ _ hk hackable hnd c.2 (List.mem_map_of_mem hc) r' hr' (heq.1.trans hid)
      have hstatus : r'.upToClock.status = r.upToClock.status := congrArg (fun r : JobRow => r.status) heq.2
      rw [JobRow.upToClock, JobRow.upToClock, hdone, hrun] at hstatus
      exact absurd hstatus (by decide)
  · intro hplain
    -- the clock readings differ from call to call, and nothing else does
    obtain ⟨s', hs', hat'⟩ := sequentialAck_plain i calls db.tables _ (ofDb_at db) hp hplain
    have hclock := ack_foldl now workerId calls db.tables db.tables ⟨rfl, rfl⟩
    refine ⟨s, s', hs, hs', ⟨.of_eq ?_, .of_eq ?_⟩⟩
    · rw [hat.jobs, hat'.jobs, map_upToFresh hids, map_upToFresh hids', hclock.jobs]
    · rw [hat.attempts, hat'.attempts]
      exact hclock.attempts

/-! ### A daily job -/

/-- A job that `w1` runs, with its attempt; `interval` says whether it recurs. -/
def reportDb (interval : Option Int) : Db :=
  { releasedDb with
    jobs := ⟨[{ releasedJob with lockedBy := some "w1", recurringIntervalSeconds := interval }], by
      constructor <;> simp [JobRow.key]⟩
    attempts := ⟨[runningAttempt 100 10 "emails_19700101_00" 1 1 "w1"], by decide⟩ }

/-- Its completion. -/
def reportCalls : List (Tx.SuccessEnv × Completion) := [(⟨150, 7, .ok ()⟩, (1, 10, 20))]

/-- Completed in a batch, the daily job leaves one row; completed by itself, it leaves the next occurrence as well. -/
theorem batch_drops_recurrence :
    (∀ c ∈ reportCalls, RunsIn (reportDb (some 86400)) "emails_19700101_00" "w1" c.2) ∧
    (batchAck 0 150 "emails_19700101_00" (reportCalls.map (·.2)) "w1" (Store.ofDb (reportDb (some 86400)))).map
      (fun s => s.jobs.committedRows.map (·.status)) = some ["succeeded"] ∧
    (sequentialAck 0 "w1" reportCalls (Store.ofDb (reportDb (some 86400)))).map
      (fun s => s.jobs.committedRows.map (·.status)) = some ["succeeded", "queued"] ∧
    ¬BatchAgrees (reportDb (some 86400)) 0 150 "emails_19700101_00" "w1" reportCalls := by
  have hbatch : (batchAck 0 150 "emails_19700101_00" (reportCalls.map (·.2)) "w1"
      (Store.ofDb (reportDb (some 86400)))).map (fun s => s.jobs.committedRows.map (·.status)) =
        some ["succeeded"] := by decide
  have hseq : (sequentialAck 0 "w1" reportCalls (Store.ofDb (reportDb (some 86400)))).map
      (fun s => s.jobs.committedRows.map (·.status)) = some ["succeeded", "queued"] := by decide
  refine ⟨?_, hbatch, hseq, ?_⟩
  · intro c hc
    obtain rfl := List.mem_singleton.mp hc
    unfold RunsIn LeasedIn
    decide
  · rintro ⟨s, s', hs, hs', hsame⟩
    rw [hs, Option.map_some, Option.some.injEq] at hbatch
    rw [hs', Option.map_some, Option.some.injEq] at hseq
    have hlen := hsame.jobs.length_eq
    have h₁ := congrArg List.length hbatch
    have h₂ := congrArg List.length hseq
    simp only [List.length_map, List.length_cons, List.length_nil] at hlen h₁ h₂
    omega

/-- The same job, if it does not recur. -/
theorem batch_ack_once : BatchAgrees (reportDb none) 0 150 "emails_19700101_00" "w1" reportCalls := by
  refine (batch_ack_iff (reportDb none) 0 150 "emails_19700101_00" "w1" reportCalls ?_ ?_ ?_ ?_ ?_).mpr ?_
  · unfold Db.ForeignKey
    decide
  · intro c hc
    obtain rfl := List.mem_singleton.mp hc
    unfold RunsIn LeasedIn
    decide
  · decide
  · decide
  · decide
  · intro c hc
    obtain rfl := List.mem_singleton.mp hc
    unfold Recurs
    decide

end Azums.Postgres
