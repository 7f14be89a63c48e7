import Azums.Postgres.LeaseLaws
import Azums.Redis.Progress
import Azums.Sqlite.Sweeps

/-!
# `Backends.LeaseBound` — how many jobs a lease may take

A caller asks for `batch_size` jobs, and the four backends read that number in four ways: `MemoryBackend` takes
`batch_size.max(0)`, `SqliteBackend` hands it to `LIMIT`, for which a negative number is no limit, `JobsRepo` clamps it
to 1 to 4096 and `RedisBackend` to 1 to 100. `lease_bound` says for which numbers and stores a lease takes no more than
it was asked for: in memory always, in the others if the number is large enough or there is nothing to take.
-/

namespace Azums.Backends

/-! ## The bound -/

/-- Between two states, only these jobs have come to run. The states give the status of each job. -/
def RunsOnly (taken : List Uuid) (before after : Uuid → Option String) : Prop :=
  ∀ id, after id = some "running" → id ∈ taken ∨ before id = some "running"

/-- A lease of `batchSize` jobs returns at most so many, and moves at most so many to `running`. -/
structure WithinBatch (batchSize : Int) (returned : Nat) (before after : Uuid → Option String) : Prop where
  returned : (returned : Int) ≤ max batchSize 0
  moved : ∀ ids : List Uuid, ids.Nodup → (∀ id ∈ ids, after id = some "running" ∧ before id ≠ some "running") →
    (ids.length : Int) ≤ max batchSize 0

/-- How many jobs a call returns. -/
def count {α : Type} : Outcome (List α) → Nat
  | .ok leased => leased.length
  | .err _ | .panic => 0

/-- The status of every job of a map, and of a table. -/
def statuses (jobs : Uuid → Option Job) (id : Uuid) : Option String := (jobs id).map (·.status)

section Rules

variable {taken taken' : List Uuid} {a b c : Uuid → Option String} {batchSize : Int} {returned : Nat}

theorem RunsOnly.refl (taken : List Uuid) (a : Uuid → Option String) : RunsOnly taken a a := fun _ h => Or.inr h

theorem RunsOnly.trans (h : RunsOnly taken a b) (h' : RunsOnly taken' b c) : RunsOnly (taken ++ taken') a c := by
  intro id hid
  rw [List.mem_append]
  rcases h' id hid with hin | hb
  · exact Or.inl (Or.inr hin)
  · exact (h id hb).imp_left Or.inl

/-- A lease stays within its batch if the jobs that it returns and moves are few enough. -/
theorem RunsOnly.withinBatch (h : RunsOnly taken a b) (hret : (returned : Int) ≤ max batchSize 0)
    (htaken : (taken.length : Int) ≤ max batchSize 0) : WithinBatch batchSize returned a b := by
  refine ⟨hret, fun ids hnd hmoved => ?_⟩
  have hsub : ids ⊆ taken := fun id hid => (h id (hmoved id hid).1).resolve_right (hmoved id hid).2
  have hle : ids.length ≤ taken.length := (List.subperm_of_subset hnd hsub).length_le
  omega

/-- A lease that returns a job has gone beyond a batch of none. -/
theorem not_withinBatch (hret : 0 < returned) (hbatch : batchSize ≤ 0) : ¬WithinBatch batchSize returned a b := by
  intro h
  have hle := h.returned
  omega

/-- A write under some keys. -/
theorem runsOnly_mapAt (f : Job → Job) (ids : List Uuid) (m : Uuid → Option Job)
    (h : ∀ job, (f job).status = "running" → ids ⊆ taken) :
    RunsOnly taken (statuses m) (statuses (Memory.mapAt f ids m)) := by
  intro id hid
  unfold statuses at *
  by_cases hin : id ∈ ids
  · rw [Memory.mapAt_of_mem hin, Option.map_map] at hid
    obtain ⟨job, _, hst⟩ := Option.map_eq_some_iff.mp hid
    exact Or.inl (h job hst hin)
  · rw [Memory.mapAt_of_not_mem hin] at hid
    exact Or.inr hid

/-- A record that is stored. -/
theorem runsOnly_store {id : Uuid} {job : Job} (m : Uuid → Option Job) (h : job.status = "running" → id ∈ taken) :
    RunsOnly taken (statuses m) (statuses (Function.update m id (some job))) := by
  intro i hi
  unfold statuses at *
  by_cases hid : i = id
  · rw [hid, Function.update_self, Option.map_some, Option.some.injEq] at hi
    rw [hid]
    exact Or.inl (h hi)
  · rw [Function.update_of_ne hid] at hi
    exact Or.inr hi

/-- An `UPDATE`. -/
theorem runsOnly_update {ρ ι : Type} {index : ρ → ι} {constraint : List ι → Prop} {t : Table ρ index constraint}
    {p : ρ → Bool} {f : Table.Assign index} {key : ρ → Uuid} (status : ρ → String)
    (hkey : ∀ r, key (f.set r) = key r)
    (h : ∀ r, p r = true → status (f.set r) = "running" → key r ∈ taken ∨ status r = "running") :
    RunsOnly taken (fun id => (t.lookup key id).map status) (fun id => ((t.update p f).lookup key id).map status) := by
  intro id hid
  simp only [Table.lookup_update hkey] at hid
  obtain ⟨r, hr, hst⟩ := Option.map_eq_some_iff.mp hid
  obtain ⟨r', hr', rfl⟩ := Option.map_eq_some_iff.mp hr
  by_cases hp : p r' = true
  · rw [if_pos hp] at hst
    refine (h r' hp hst).imp (fun hin => ?_) fun hrun => ?_
    · rw [← (Table.lookup_some hr').2]
      exact hin
    · show (t.lookup key id).map status = some "running"
      rw [hr', Option.map_some, hrun]
  · rw [if_neg hp] at hst
    right
    show (t.lookup key id).map status = some "running"
    rw [hr', Option.map_some, hst]

end Rules

/-! ## The memory backend -/

section MemoryLease

open Memory

variable {s : InnerState} {now : DateTime} {queue workerId : String} {leaseSeconds batchSize : Int}
  {ordering : QueueOrdering}

/-- The memory backend stays within every batch. -/
theorem memory_withinBatch : WithinBatch batchSize
    (count (leaseJobsBatchWithOrdering s now queue workerId leaseSeconds batchSize ordering).1) (statuses s.jobs)
    (statuses (leaseJobsBatchWithOrdering s now queue workerId leaseSeconds batchSize ordering).2.jobs) := by
  have hswept : RunsOnly [] (statuses s.jobs) (statuses (sweepDeadlines s now queue).jobs) := by
    rw [sweepDeadlines, (sweep_jobs now queue (expiredDeadlines s now queue) s).1]
    exact runsOnly_mapAt _ _ _ fun job hst => absurd hst (by simp [deadlineExceeded])
  have hpos : (0 : Int) ≤ max batchSize 0 := le_max_right ..
  unfold leaseJobsBatchWithOrdering
  simp only
  split
  · exact hswept.withinBatch hpos hpos
  · cases Chrono.addSeconds now leaseSeconds with
    | none =>
        simp only [InnerState.indexRemove_jobs]
        exact hswept.withinBatch hpos hpos
    | some t =>
        have hlen : (candidates (sweepDeadlines s now queue) now queue batchSize).length ≤ (max batchSize 0).toNat :=
          List.length_take_le ..
        obtain ⟨hjobs, _⟩ := leaseEach_jobs now t workerId (candidates (sweepDeadlines s now queue) now queue batchSize)
          ((sweepDeadlines s now queue).indexRemove queue (candidates (sweepDeadlines s now queue) now queue batchSize))
        simp only [hjobs, InnerState.indexRemove_jobs, leaseEach_leased, count]
        refine (hswept.trans (runsOnly_mapAt _ _ _ fun _ _ => List.Subset.refl _)).withinBatch ?_ ?_
        · have hle := List.length_filterMap_le
            (fun entry : QueueEntry => ((sweepDeadlines s now queue).jobs entry.id).map (leasedJob now t workerId))
            (candidates (sweepDeadlines s now queue) now queue batchSize)
          omega
        · rw [List.nil_append, List.length_map]
          omega

end MemoryLease

/-! ## SQLite -/

section SqliteLease

open Sqlite

variable {texts : Texts} {db : Db} {now : DateTime} {queue : String}

/-- The status of every row. -/
def sqliteStatuses (db : Db) (id : Uuid) : Option String := (db.jobs.lookup (·.id) id).map (·.status)

/-- The rows of the queue that are queued, due and in time, as the texts of the times sort. -/
def readyRows (texts : Texts) (db : Db) (queue : String) (now : DateTime) : List Job :=
  db.jobs.rows.filter (fun r => runnable texts queue now r && !missedDeadline texts queue now r)

/-- What the sweep leaves of the rows that a lease selects, without its limit. -/
def ready (texts : Texts) (db : Db) (queue : String) (now : DateTime) (ordering : QueueOrdering) : List Job :=
  ((db.jobs.rows.map (fun r => if missedDeadline texts queue now r then deadlineRow now r else r)).filter
    (runnable texts queue now)).insertionSort (OrderLe texts ordering)

theorem mem_ready (ordering : QueueOrdering) {r : Job} :
    r ∈ ready texts db queue now ordering ↔ r ∈ readyRows texts db queue now := by
  rw [ready, List.mem_insertionSort, List.mem_filter, List.mem_map, readyRows, List.mem_filter, Bool.and_eq_true,
    Bool.not_eq_true']
  constructor
  · rintro ⟨⟨r', hr', rfl⟩, hrun⟩
    by_cases hm : missedDeadline texts queue now r' = true
    · rw [if_pos hm] at hrun
      simp [runnable, deadlineRow] at hrun
    · rw [if_neg hm] at hrun ⊢
      exact ⟨hr', hrun, by simpa using hm⟩
  · rintro ⟨hr, hrun, hm⟩
    exact ⟨⟨r, hr, by simp [hm]⟩, hrun⟩

theorem ready_eq_nil (ordering : QueueOrdering) :
    ready texts db queue now ordering = [] ↔ readyRows texts db queue now = [] := by
  simp only [List.eq_nil_iff_forall_not_mem, mem_ready]

theorem unreadable_ready (ordering : QueueOrdering) :
    texts.Unreadable (ready texts db queue now ordering) ↔ texts.Unreadable (readyRows texts db queue now) := by
  simp only [Texts.Unreadable, mem_ready]

/-- SQLite goes beyond its batch if that is negative and there is a job to lease. -/
theorem sqlite_withinBatch_iff (texts : Texts) (db : Db) (now : DateTime) (queue workerId : String)
    (leaseSeconds batchSize : Int) (ordering : QueueOrdering) :
    WithinBatch batchSize
        (count (leaseJobsBatchWithOrdering texts db now queue workerId leaseSeconds batchSize ordering).1)
        (sqliteStatuses db)
        (sqliteStatuses (leaseJobsBatchWithOrdering texts db now queue workerId leaseSeconds batchSize ordering).2) ↔
      0 ≤ batchSize ∨ readyRows texts db queue now = [] ∨ texts.Unreadable (readyRows texts db queue now) ∨
        Chrono.addSeconds now leaseSeconds = none := by
  have hswept : RunsOnly [] (sqliteStatuses db) (sqliteStatuses
      { db with jobs := db.jobs.update (missedDeadline texts queue now) { set := deadlineRow now } }) :=
    runsOnly_update (fun r : Job => r.status) (fun _ => rfl) fun r _ hst => absurd hst (by simp [deadlineRow])
  have hpos : (0 : Int) ≤ max batchSize 0 := le_max_right ..
  have hrows : candidates texts (db.jobs.update (missedDeadline texts queue now) { set := deadlineRow now }).rows queue
      now ordering batchSize = limit batchSize (ready texts db queue now ordering) := rfl
  unfold leaseJobsBatchWithOrdering
  simp only [hrows]
  cases hread : fetchAll texts.readRow (limit batchSize (ready texts db queue now ordering)) with
  | error message =>
      refine iff_of_true ((RunsOnly.refl [] _).withinBatch hpos hpos) ?_
      by_cases hneg : batchSize < 0
      · have hunreadable := fetchAll_error_iff.mp ⟨message, hread⟩
        rw [limit, if_pos hneg, unreadable_ready] at hunreadable
        exact Or.inr (Or.inr (Or.inl hunreadable))
      · exact Or.inl (not_lt.mp hneg)
  | ok taken =>
      have hids := fetchAll_ids hread
      have hlen := (by simpa using congrArg List.length hids : taken.length = _)
      simp only
      split
      · rename_i hempty
        refine iff_of_true (hswept.withinBatch hpos hpos) ?_
        by_cases hneg : batchSize < 0
        · rw [List.isEmpty_iff.mp hempty, limit, if_pos hneg, List.length_nil, eq_comm, List.length_eq_zero_iff,
            ready_eq_nil] at hlen
          exact Or.inr (Or.inl hlen)
        · exact Or.inl (not_lt.mp hneg)
      · rename_i hcons
        cases hadd : Chrono.addSeconds now leaseSeconds with
        | none => exact iff_of_true ((RunsOnly.refl [] _).withinBatch hpos hpos) (Or.inr (Or.inr (Or.inr rfl)))
        | some t =>
            simp only [leaseEach_leased, count, List.length_map]
            have hleased : RunsOnly (taken.map (·.id)) (sqliteStatuses db) (sqliteStatuses { db with
                jobs := (leaseEach now t workerId taken
                  (db.jobs.update (missedDeadline texts queue now) { set := deadlineRow now })).2 }) := by
              refine hswept.trans ?_
              have hloop := leaseEach_lookup now t workerId taken
                (db.jobs.update (missedDeadline texts queue now) { set := deadlineRow now })
              have hmap := runsOnly_mapAt (Memory.leasedJob now t workerId) (taken.map (·.id))
                ((db.jobs.update (missedDeadline texts queue now) { set := deadlineRow now }).lookup (·.id))
                fun _ _ => List.Subset.refl _
              rw [← hloop] at hmap
              exact hmap
            by_cases hneg : batchSize < 0
            · refine iff_of_false (not_withinBatch ?_ (by omega)) ?_
              · exact List.length_pos_iff.mpr fun hnil => hcons (by rw [hnil]; rfl)
              · -- without a limit all ready rows were read, and there are some
                rw [limit, if_pos hneg] at hread hlen
                rintro (hle | hnone | hunreadable | hadd')
                · omega
                · rw [(ready_eq_nil ordering).mpr hnone, List.length_nil, List.length_eq_zero_iff] at hlen
                  exact hcons (by rw [hlen]; rfl)
                · obtain ⟨message, herror⟩ := fetchAll_error_iff.mpr ((unreadable_ready ordering).mpr hunreadable)
                  rw [hread] at herror
                  cases herror
                · cases hadd'
            · have hle : taken.length ≤ batchSize.toNat := by
                rw [hlen, limit, if_neg hneg]
                exact List.length_take_le ..
              refine iff_of_true (hleased.withinBatch ?_ ?_) (Or.inl (not_lt.mp hneg))
              · omega
              · rw [List.length_map]
                omega

end SqliteLease

/-! ## PostgreSQL -/

section PostgresLease

open Postgres

/-- The status of every row. -/
def postgresStatuses (db : Db) (id : Uuid) : Option String := (db.jobs.lookup (·.id) id).map (·.status)

/-- The queue's policy throttles a lease. -/
def Throttled (db : Db) (queue : String) (now : DateTime) : Prop :=
  ∃ policy, db.queuePolicies queue = some policy ∧
    throttleReason policy (inFlight (sweep db queue now).jobs.rows queue)
      (attemptsLastMinute (sweep db queue now).attempts.rows (sweep db queue now).jobs.rows queue now) ≠ none

/-- A row of the queue is queued, due and in time. -/
def PostgresReady (db : Db) (queue : String) (now : DateTime) : Prop :=
  ∃ r ∈ db.jobs.rows, eligible queue now r = true

variable {db : Db} {env : LeaseEnv} {req : LeaseRequest}

theorem pickedDataset_ready {queue : String} {now : DateTime} :
    pickedDataset db queue now = none ↔ ¬PostgresReady db queue now := by
  rw [pickedDataset_eq_none, List.filter_eq_nil_iff, PostgresReady, not_exists]
  exact forall_congr' fun r => not_and.symm

theorem sweep_runsOnly : RunsOnly [] (postgresStatuses db) (postgresStatuses (sweep db req.queue env.now)) :=
  runsOnly_update (fun r : JobRow => r.status) (fun _ => rfl) fun r _ hst => absurd hst (by simp [deadlineRow])

/-- A throttled lease puts one row off, and leaves every status alone. -/
theorem throttle_runsOnly (datasetId : String) (policy : QueuePolicy) (reasonCode : String) :
    RunsOnly [] (postgresStatuses db) (postgresStatuses (throttle db env req datasetId policy reasonCode)) := by
  unfold throttle
  split
  · exact .refl [] _
  · exact runsOnly_update (fun r : JobRow => r.status) (fun _ => rfl) fun r _ hst => Or.inr hst

theorem leaseCandidates_runsOnly (datasetId : String) :
    RunsOnly ((candidates db.jobs.rows datasetId req.queue env.now req.ordering (clampBatch req.batchSize)).map (·.id))
      (postgresStatuses db) (postgresStatuses (leaseCandidates db env req datasetId).2) :=
  runsOnly_update (fun r : JobRow => r.status) (fun _ => rfl) fun _ hp _ => Or.inl (of_decide_eq_true hp)

/-- The dataset that is picked has a row to lease. -/
theorem batchOf_pos {datasetId : String} {n : Nat} (hn : 0 < n)
    (hpick : pickedDataset db req.queue env.now = some datasetId) (ordering : QueueOrdering) :
    0 < (batchOf db datasetId req.queue env.now ordering n).length := by
  obtain ⟨r, hr, hds⟩ := Option.map_eq_some_iff.mp hpick
  have hin := (List.mem_insertionSort _).mp (List.mem_of_mem_head? hr)
  have hmem : r ∈ (db.jobs.rows.filter
      (fun r => r.datasetId == datasetId && eligible req.queue env.now r)).insertionSort (OrderLe ordering) := by
    rw [List.mem_insertionSort, List.mem_filter]
    obtain ⟨hrow, helig⟩ := List.mem_filter.mp hin
    exact ⟨hrow, by simp [hds, helig]⟩
  rw [batchOf, List.length_take]
  have hpos := List.length_pos_of_mem hmem
  omega

/-- PostgreSQL goes beyond its batch if that is not positive and there is a job to lease. -/
theorem postgres_withinBatch_iff (db : Db) (env : LeaseEnv) (req : LeaseRequest) :
    WithinBatch req.batchSize (count (leaseJobsBatchWithOrdering db env req).1) (postgresStatuses db)
        (postgresStatuses (leaseJobsBatchWithOrdering db env req).2) ↔
      1 ≤ req.batchSize ∨ ¬PostgresReady db req.queue env.now ∨ Throttled db req.queue env.now ∨
        ¬FitsInteger req.leaseSeconds := by
  have hswept : RunsOnly [] (postgresStatuses db) (postgresStatuses (sweep db req.queue env.now)) := sweep_runsOnly
  have hpos : (0 : Int) ≤ max req.batchSize 0 := le_max_right ..
  unfold leaseJobsBatchWithOrdering
  simp only [pickDataset_sweep]
  cases hpick : pickedDataset db req.queue env.now with
  | none =>
      exact iff_of_true (hswept.withinBatch hpos hpos) (Or.inr (Or.inl (pickedDataset_ready.mp hpick)))
  | some datasetId =>
      have hready : PostgresReady db req.queue env.now := by
        by_contra hnone
        rw [pickedDataset_ready.mpr hnone] at hpick
        cases hpick
      cases hreason : (db.queuePolicies req.queue).bind (fun policy =>
        (throttleReason policy (inFlight (sweep db req.queue env.now).jobs.rows req.queue)
          (attemptsLastMinute (sweep db req.queue env.now).attempts.rows (sweep db req.queue env.now).jobs.rows
            req.queue env.now)).map (fun reason => (policy, reason))) with
      | some reason =>
          obtain ⟨policy, hpolicy, hmap⟩ := Option.bind_eq_some_iff.mp hreason
          obtain ⟨code, hcode, rfl⟩ := Option.map_eq_some_iff.mp hmap
          have hthrottled : Throttled db req.queue env.now :=
            ⟨policy, hpolicy, by rw [hcode]; exact Option.some_ne_none _⟩
          refine iff_of_true ?_ (Or.inr (Or.inr (Or.inl hthrottled)))
          exact (hswept.trans (throttle_runsOnly datasetId policy code)).withinBatch hpos hpos
      | none =>
          have hfree : ¬Throttled db req.queue env.now := by
            rintro ⟨policy, hpolicy, hne⟩
            rw [hpolicy, Option.bind_some, Option.map_eq_none_iff] at hreason
            exact hne hreason
          simp only
          by_cases hfits : FitsInteger req.leaseSeconds
          · rw [if_pos hfits]
            obtain ⟨_, hperm⟩ := leaseCandidates_sweep db env req datasetId
            have hret := hperm.length_eq
            rw [List.length_map] at hret
            have hlen : (batchOf db datasetId req.queue env.now req.ordering (clampBatch req.batchSize)).length ≤
                clampBatch req.batchSize := List.length_take_le ..
            have htaken : RunsOnly _ (postgresStatuses (sweep db req.queue env.now))
              (postgresStatuses (leaseCandidates (sweep db req.queue env.now) env req datasetId).2) :=
              leaseCandidates_runsOnly datasetId
            rw [candidates_sweep] at htaken
            have hmoved := hswept.trans htaken
            by_cases hbatch : 1 ≤ req.batchSize
            · have hclamp : (clampBatch req.batchSize : Int) ≤ max req.batchSize 0 := by
                unfold clampBatch
                omega
              refine iff_of_true (hmoved.withinBatch ?_ ?_) (Or.inl hbatch)
              · rw [count, hret]
                omega
              · rw [List.nil_append, List.length_map]
                omega
            · have hone : 0 < clampBatch req.batchSize := by
                unfold clampBatch
                omega
              refine iff_of_false (not_withinBatch ?_ (by omega)) ?_
              · rw [count, hret]
                exact batchOf_pos hone hpick req.ordering
              · rintro (h | h | h | h)
                · exact hbatch h
                · exact h hready
                · exact hfree h
                · exact h hfits
          · rw [if_neg hfits]
            exact iff_of_true ((RunsOnly.refl [] _).withinBatch hpos hpos) (Or.inr (Or.inr (Or.inr hfits)))

end PostgresLease

/-! ## Redis -/

section RedisLease

open Redis

/-- How many jobs an answer hands out. -/
def redisCount : Outcome Answer → Nat
  | .ok (.jobs leased) => leased.length
  | _ => 0

/-- The head of the queue's list is the id of a job that is due and in time. -/
def RedisReady (s : Store) (queue : String) (now : DateTime) : Prop :=
  ∃ id job, (s.list (queueKey queue)).head? = some id ∧ s.jobs id = some job ∧ job.runAt ≤ now ∧ missed now job = false

/-- A round of the loop hands out one job at most, and only a job that is handed out comes to run. -/
theorem leaseEach_rounds (queue workerId : String) (now lockExpiresAt : DateTime) (n : Nat) :
    ∀ (leased : List Job) (s : Store), ∃ more ids s',
      (leaseEach queue workerId now lockExpiresAt n leased).alone Command.exec s = (.ok (.jobs (leased ++ more)), s') ∧
        more.length ≤ n ∧ ids.length = more.length ∧ RunsOnly ids (statuses s.jobs) (statuses s'.jobs) := by
  induction n with
  | zero => exact fun leased s => ⟨[], [], s, by simp [leaseEach, Prog.alone], le_refl _, rfl, .refl [] _⟩
  | succ n ih =>
      intro leased s
      rw [leaseEach_succ_alone]
      cases hhead : (s.list (queueKey queue)).head? with
      | none => exact ⟨[], [], s, by simp, Nat.zero_le _, rfl, .refl [] _⟩
      | some id =>
          cases hjob : s.jobs id with
          | none =>
              simp only [hjob]
              obtain ⟨more, ids, s', hrun, hmore, hids, hruns⟩ := ih leased (taken queue workerId id s)
              exact ⟨more, ids, s', hrun, by omega, hids, hruns⟩
          | some job =>
              simp only [hjob]
              by_cases hahead : now < job.runAt
              · rw [if_pos hahead]
                obtain ⟨more, ids, s', hrun, hmore, hids, hruns⟩ :=
                  ih leased (putBack queue workerId id (taken queue workerId id s))
                exact ⟨more, ids, s', hrun, by omega, hids, hruns⟩
              · rw [if_neg hahead]
                by_cases hmissed : missed now job = true
                · rw [if_pos hmissed]
                  have hdead : RunsOnly [] (statuses s.jobs)
                      (statuses (Function.update s.jobs id (some (missedJob now job)))) :=
                    runsOnly_store s.jobs fun hst => absurd hst (by simp [missedJob])
                  obtain ⟨more, ids, s', hrun, hmore, hids, hruns⟩ := ih leased
                    ((Command.lrem (processingKey queue workerId) id).exec
                      ((Command.hset id (missedJob now job)).exec (taken queue workerId id s)).2).2
                  exact ⟨more, ids, s', hrun, by omega, hids, hdead.trans hruns⟩
                · rw [if_neg hmissed]
                  have hleased : RunsOnly [id] (statuses s.jobs)
                      (statuses (Function.update s.jobs id (some (leasedJob now lockExpiresAt workerId job)))) :=
                    runsOnly_store s.jobs fun _ => List.mem_singleton_self id
                  obtain ⟨more, ids, s', hrun, hmore, hids, hruns⟩ :=
                    ih (leased ++ [leasedJob now lockExpiresAt workerId job])
                      ((Command.hset id (leasedJob now lockExpiresAt workerId job)).exec (taken queue workerId id s)).2
                  refine ⟨leasedJob now lockExpiresAt workerId job :: more, id :: ids, s', ?_, ?_, ?_,
                    hleased.trans hruns⟩
                  · rw [hrun, List.append_assoc, List.singleton_append]
                  · rw [List.length_cons]
                    omega
                  · rw [List.length_cons, List.length_cons, hids]

/-- One round hands out the head of the list, if it may. -/
theorem leaseEach_one (queue workerId : String) (now lockExpiresAt : DateTime) (s : Store) :
    0 < redisCount ((leaseEach queue workerId now lockExpiresAt 1 []).alone Command.exec s).1 ↔
      RedisReady s queue now := by
  rw [leaseEach_succ_alone]
  unfold RedisReady
  cases hhead : (s.list (queueKey queue)).head? with
  | none => simp [redisCount]
  | some id =>
      cases hjob : s.jobs id with
      | none => simp [leaseEach, Prog.alone, redisCount, hjob]
      | some job =>
          by_cases hahead : now < job.runAt
          · simp [leaseEach, Prog.alone, redisCount, hjob, hahead]
          · by_cases hmissed : missed now job = true
            · simp [leaseEach, Prog.alone, redisCount, hjob, hahead, hmissed]
            · simpa [leaseEach, Prog.alone, redisCount, hjob, hahead, hmissed] using not_lt.mp hahead

/-- Redis, with nobody else at the server, goes beyond its batch if that is not positive and the head of the list can be
    leased. -/
theorem redis_withinBatch_iff (s : Store) (now : DateTime) (queue workerId : String) (leaseSeconds batchSize : Int) :
    WithinBatch batchSize
        (redisCount ((leaseJobsBatch now queue workerId leaseSeconds batchSize).alone Command.exec s).1)
        (statuses s.jobs)
        (statuses ((leaseJobsBatch now queue workerId leaseSeconds batchSize).alone Command.exec s).2.jobs) ↔
      1 ≤ batchSize ∨ ¬RedisReady s queue now ∨ Chrono.addSeconds now leaseSeconds = none := by
  have hpos : (0 : Int) ≤ max batchSize 0 := le_max_right ..
  unfold leaseJobsBatch
  cases hadd : Chrono.addSeconds now leaseSeconds with
  | none => exact iff_of_true ((RunsOnly.refl [] _).withinBatch hpos hpos) (Or.inr (Or.inr rfl))
  | some t =>
      simp only
      obtain ⟨more, ids, s', hrun, hmore, hids, hruns⟩ :=
        leaseEach_rounds queue workerId now t (min (max batchSize 1) 100).toNat [] s
      by_cases hbatch : 1 ≤ batchSize
      · rw [hrun]
        refine iff_of_true (hruns.withinBatch ?_ ?_) (Or.inl hbatch)
        · simp only [redisCount, List.nil_append]
          omega
        · omega
      · have hone : (min (max batchSize 1) 100).toNat = 1 := by omega
        have hhead := leaseEach_one queue workerId now t s
        rw [hone] at hrun ⊢
        rw [hrun] at hhead ⊢
        simp only [redisCount, List.nil_append] at hhead ⊢
        by_cases hready : RedisReady s queue now
        · refine iff_of_false (not_withinBatch (hhead.mpr hready) (by omega)) ?_
          rintro (h | h | h)
          · exact hbatch h
          · exact h hready
          · cases h
        · have hzero : ¬0 < more.length := fun h => hready (hhead.mp h)
          exact iff_of_true (hruns.withinBatch (by omega) (by omega)) (Or.inr (Or.inl hready))

end RedisLease

/-! ## The four together -/

/-- **No more than asked for.** On every store and for every number, the memory backend leases at most
    `max(batch_size, 0)` jobs. SQLite does so unless the number is negative, PostgreSQL and Redis unless it is below one:
    then they lease jobs, if there is one to lease, all that are selected decode, no policy throttles the lease and its
    end can be computed. -/
theorem lease_bound (s : Memory.InnerState) (texts : Sqlite.Texts) (sqlite : Sqlite.Db) (postgres : Postgres.Db)
    (redis : Redis.Store) (now : DateTime) (decisionId : Uuid) (queue workerId : String) (leaseSeconds batchSize : Int)
    (ordering : QueueOrdering) :
    WithinBatch batchSize
        (count (Memory.leaseJobsBatchWithOrdering s now queue workerId leaseSeconds batchSize ordering).1)
        (statuses s.jobs)
        (statuses (Memory.leaseJobsBatchWithOrdering s now queue workerId leaseSeconds batchSize ordering).2.jobs) ∧
    (WithinBatch batchSize
        (count (Sqlite.leaseJobsBatchWithOrdering texts sqlite now queue workerId leaseSeconds batchSize ordering).1)
        (sqliteStatuses sqlite) (sqliteStatuses
          (Sqlite.leaseJobsBatchWithOrdering texts sqlite now queue workerId leaseSeconds batchSize ordering).2) ↔
      0 ≤ batchSize ∨ readyRows texts sqlite queue now = [] ∨ texts.Unreadable (readyRows texts sqlite queue now) ∨
        Chrono.addSeconds now leaseSeconds = none) ∧
    (WithinBatch batchSize
        (count (Postgres.leaseJobsBatchWithOrdering postgres ⟨now, decisionId⟩
          ⟨queue, workerId, leaseSeconds, batchSize, ordering⟩).1)
        (postgresStatuses postgres) (postgresStatuses (Postgres.leaseJobsBatchWithOrdering postgres ⟨now, decisionId⟩
          ⟨queue, workerId, leaseSeconds, batchSize, ordering⟩).2) ↔
      1 ≤ batchSize ∨ ¬PostgresReady postgres queue now ∨ Throttled postgres queue now ∨
        ¬Postgres.FitsInteger leaseSeconds) ∧
    (WithinBatch batchSize
        (redisCount ((Redis.leaseJobsBatch now queue workerId leaseSeconds batchSize).alone Redis.Command.exec redis).1)
        (statuses redis.jobs) (statuses
          ((Redis.leaseJobsBatch now queue workerId leaseSeconds batchSize).alone Redis.Command.exec redis).2.jobs) ↔
      1 ≤ batchSize ∨ ¬RedisReady redis queue now ∨ Chrono.addSeconds now leaseSeconds = none) :=
  ⟨memory_withinBatch, sqlite_withinBatch_iff texts sqlite now queue workerId leaseSeconds batchSize ordering,
    postgres_withinBatch_iff postgres ⟨now, decisionId⟩ ⟨queue, workerId, leaseSeconds, batchSize, ordering⟩,
    redis_withinBatch_iff redis now queue workerId leaseSeconds batchSize⟩

/-- SQLite with two due jobs. -/
def twoEmails : Sqlite.Db :=
  (Sqlite.enqueueInTx (Sqlite.enqueueInTx Sqlite.Db.empty 5 7 Memory.welcomeEmail).2 5 8 Memory.welcomeEmail).2

/-- A lease of -1 jobs from SQLite returns both; a lease of no job from PostgreSQL or Redis returns one. -/
theorem lease_beyond_batch :
    count (Sqlite.leaseJobsBatchWithOrdering .plain twoEmails 9 "emails" "w1" 30 (-1) .fifo).1 = 2 ∧
      ¬WithinBatch (-1) (count (Sqlite.leaseJobsBatchWithOrdering .plain twoEmails 9 "emails" "w1" 30 (-1) .fifo).1)
        (sqliteStatuses twoEmails)
        (sqliteStatuses (Sqlite.leaseJobsBatchWithOrdering .plain twoEmails 9 "emails" "w1" 30 (-1) .fifo).2) ∧
      ¬WithinBatch 0
        (count (Postgres.leaseJobsBatchWithOrdering (Postgres.dbWith Postgres.twoHours none) ⟨9, 1⟩
          ⟨"emails", "w1", 30, 0, .fifo⟩).1)
        (postgresStatuses (Postgres.dbWith Postgres.twoHours none))
        (postgresStatuses (Postgres.leaseJobsBatchWithOrdering (Postgres.dbWith Postgres.twoHours none) ⟨9, 1⟩
          ⟨"emails", "w1", 30, 0, .fifo⟩).2) ∧
      ¬WithinBatch 0
        (redisCount ((Redis.leaseJobsBatch 9 "emails" "w1" 30 0).alone Redis.Command.exec Redis.oneBehind).1)
        (statuses Redis.oneBehind.jobs)
        (statuses ((Redis.leaseJobsBatch 9 "emails" "w1" 30 0).alone Redis.Command.exec Redis.oneBehind).2.jobs) :=
  ⟨by decide, not_withinBatch (by decide) (by decide), not_withinBatch (by decide) (by decide),
    not_withinBatch (by decide) (by decide)⟩

end Azums.Backends
