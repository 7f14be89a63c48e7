import Azums.Postgres.Tables

/-!
# `Postgres.Enqueue` — idempotent enqueueing through `JobsRepo`

`enqueue` and `enqueue_in_tx` run the same `INSERT … ON CONFLICT (dataset_id, idempotency_key) … DO UPDATE …
RETURNING id`. The conflict target is scoped by `dataset_id`, and `dataset_id_for` computes that from the queue
and the hour of `run_at`. So a key is deduplicated within one dataset: `idempotency_law_iff` says that a sequence
of calls treats every key as one job exactly when calls that share a key share their dataset. The transaction of each
`enqueue_in_tx` that succeeds is one that its caller commits: an insert that is rolled back is a row that goes away.
-/

namespace Azums.Postgres

/-! ## Dataset ids -/

/-- `sanitize_dataset_queue`: ASCII letters and digits in lower case, anything else `_`; then trimmed of `_` and
    cut to 32 characters. -/
def sanitizeDatasetQueue (queue : String) : String :=
  let out := queue.toList.map (fun ch => if ch.isAlphanum then ch.toLower else '_')
  let trimmed := ((out.dropWhile (· == '_')).reverse.dropWhile (· == '_')).reverse
  if trimmed.isEmpty then "default" else String.ofList (trimmed.take 32)

/-- `dataset_id_for`. -/
def datasetIdFor (queue : String) (at' : DateTime) : String :=
  sanitizeDatasetQueue queue ++ "_" ++ Chrono.formatHour (Chrono.hourOf at')

/-! ## The insert -/

/-- The row the `INSERT` would add: the bound values, and the defaults of the columns it does not name. -/
def newRow (now : DateTime) (newId : Uuid) (datasetId : String) (job : NewJob) : JobRow :=
  { datasetId := datasetId
    replayOfJobId := none
    idempotencyKey := job.idempotencyKey
    id := newId
    queue := job.queue
    jobType := job.jobType
    payload := job.payloadJson
    runAt := toTimestamptz job.runAt
    deadlineAt := job.deadlineAt.map toTimestamptz
    timeoutSeconds := job.timeoutSeconds
    recurringIntervalSeconds := job.recurringIntervalSeconds
    status := JobStatus.queued.asStr
    priority := job.priority
    maxAttempts := job.maxAttempts
    lockedAt := none
    lockedBy := none
    lockExpiresAt := none
    dlqReasonCode := none
    dlqAt := none
    createdAt := now
    updatedAt := now
    lastErrorCode := none
    lastErrorMessage := none }

/-- The values of `$8::integer` and `$9::integer` are in the range of the type. -/
def CastsFit (job : NewJob) : Prop :=
  (∀ n ∈ job.timeoutSeconds, FitsInteger n) ∧ ∀ n ∈ job.recurringIntervalSeconds, FitsInteger n

instance (job : NewJob) : Decidable (CastsFit job) := inferInstanceAs (Decidable (_ ∧ _))

/-- The `INSERT … ON CONFLICT … DO UPDATE … RETURNING id` of both functions. The `DO UPDATE` writes the key that is
    already there; the table's trigger sets `updated_at`. A statement that fails changes nothing. -/
def insertJob (t : JobsTable) (now : DateTime) (newId : Uuid) (job : NewJob) : Except String (Uuid × JobsTable) :=
  let row := newRow now newId (datasetIdFor job.queue job.runAt) job
  if ¬CastsFit job then .error "integer out of range"
  else
    match t.rows.find? (fun r => decide (r.key.Conflicts row.key)) with
    | some existing =>
        .ok (existing.id, t.update (fun r => r.id == existing.id) { set := fun r => { r with updatedAt := now } })
    | none =>
        -- the primary key, and the index once more: only an id drawn twice can fail here
        if h : JobsConstraint ((t.rows ++ [row]).map JobRow.key) then .ok (newId, t.insert row h)
        else .error "duplicate key value violates unique constraint"

/-- What happens around the insert: the result of `ensure_dataset_partition`, and of the `pg_notify` after it. -/
structure EnqueueEnv where
  now : DateTime
  newId : Uuid
  ensured : Except String Unit
  notified : Except String Unit

/-- `enqueue`: a failed notification is ignored. -/
def enqueue (t : JobsTable) (env : EnqueueEnv) (job : NewJob) : Outcome Uuid × JobsTable :=
  match env.ensured with
  | .error e => (.err e, t)
  | .ok () =>
      match insertJob t env.now env.newId job with
      | .error e => (.err e, t)
      | .ok (id, t) => (.ok id, t)

/-- `enqueue_in_tx`: a failed notification is an error, and aborts the caller's transaction with the insert. After a
    success the caller commits. -/
def enqueueInTx (t : JobsTable) (env : EnqueueEnv) (job : NewJob) : Outcome Uuid × JobsTable :=
  match env.ensured with
  | .error e => (.err e, t)
  | .ok () =>
      match insertJob t env.now env.newId job with
      | .error e => (.err e, t)
      | .ok (id, t') =>
          match env.notified with
          | .error e => (.err e, t)
          | .ok () => (.ok id, t')

/-! ## Sequences of calls -/

/-- One call of either function. -/
structure EnqueueCall where
  inTx : Bool
  env : EnqueueEnv
  job : NewJob

namespace EnqueueCall

/-- What the call returns, and the table it leaves. -/
def apply (t : JobsTable) (c : EnqueueCall) : Outcome Uuid × JobsTable :=
  if c.inTx then enqueueInTx t c.env c.job else enqueue t c.env c.job

/-- The dataset the call's job goes to. -/
def datasetId (c : EnqueueCall) : String := datasetIdFor c.job.queue c.job.runAt

/-- Nothing around the insert fails, and the casts fit. -/
def Accepted (c : EnqueueCall) : Prop :=
  c.env.ensured = .ok () ∧ CastsFit c.job ∧ (c.inTx = true → c.env.notified = .ok ())

end EnqueueCall

/-- The table after a sequence of calls. -/
def enqueueAll (calls : List EnqueueCall) (t : JobsTable) : JobsTable :=
  calls.foldl (fun t c => (c.apply t).2) t

/-- The calls of a sequence that return an id, each with that id. -/
def returned : List EnqueueCall → JobsTable → List (EnqueueCall × Uuid)
  | [], _ => []
  | c :: rest, t =>
      match c.apply t with
      | (.ok id, t') => (c, id) :: returned rest t'
      | (.err _, t') | (.panic, t') => returned rest t'

/-- Calls that carry one key return one id, and one row carries it. -/
def IdempotencyLaw (calls : List EnqueueCall) : Prop :=
  (∀ c id c' id' key, (c, id) ∈ returned calls JobsTable.empty → (c', id') ∈ returned calls JobsTable.empty →
    c.job.idempotencyKey = some key → c'.job.idempotencyKey = some key → id = id') ∧
  ∀ r r' key, r ∈ (enqueueAll calls JobsTable.empty).rows → r' ∈ (enqueueAll calls JobsTable.empty).rows →
    r.idempotencyKey = some key → r'.idempotencyKey = some key → r = r'

/-- Accepted calls that carry one key go to one dataset. -/
def KeysStayInDataset (calls : List EnqueueCall) : Prop :=
  ∀ c c' key, c ∈ calls → c' ∈ calls → c.Accepted → c'.Accepted →
    c.job.idempotencyKey = some key → c'.job.idempotencyKey = some key → c.datasetId = c'.datasetId

/-! ### One call -/

section Step

variable {t : JobsTable} {c : EnqueueCall}

/-- The indexed columns of a table. -/
abbrev keysOf (t : JobsTable) : List JobKey := t.rows.map JobRow.key

/-- The indexed columns of the row a call would insert. -/
def EnqueueCall.key (c : EnqueueCall) : JobKey :=
  { id := c.env.newId, datasetId := c.datasetId, idempotencyKey := c.job.idempotencyKey }

/-- An insert by an id not in the table: the id of the conflicting row, or a new row and the new id. -/
theorem insertJob_cases (hcasts : CastsFit c.job) (hfresh : c.env.newId ∉ (keysOf t).map (·.id)) :
    (∃ t', ∃ k ∈ keysOf t, k.Conflicts c.key ∧
      insertJob t c.env.now c.env.newId c.job = .ok (k.id, t') ∧ keysOf t' = keysOf t) ∨
    ∃ t', insertJob t c.env.now c.env.newId c.job = .ok (c.env.newId, t') ∧
      keysOf t' = keysOf t ++ [c.key] := by
  unfold insertJob
  rw [if_neg (not_not_intro hcasts)]
  cases hfind : t.rows.find? (fun r => decide (r.key.Conflicts
      (newRow c.env.now c.env.newId (datasetIdFor c.job.queue c.job.runAt) c.job).key)) with
  | some existing =>
      left
      have hconf := List.find?_some hfind
      rw [decide_eq_true_eq] at hconf
      refine ⟨_, existing.key, List.mem_map_of_mem (List.mem_of_find?_eq_some hfind), hconf, rfl, ?_⟩
      exact Table.index_update
  | none =>
      right
      -- no row conflicts, so the constraint holds with the new row
      have hvalid : JobsConstraint ((t.rows ++
          [newRow c.env.now c.env.newId (datasetIdFor c.job.queue c.job.runAt) c.job]).map JobRow.key) := by
        rw [List.map_append]
        constructor
        · rw [List.map_append, List.nodup_append']
          refine ⟨t.valid.ids, List.nodup_singleton _, ?_⟩
          rw [List.disjoint_comm]
          exact List.singleton_disjoint.mpr hfresh
        · rw [List.pairwise_append]
          refine ⟨t.valid.idempotencyKeyUq, List.pairwise_singleton _ _, ?_⟩
          intro k hk k' hk'
          obtain ⟨r, hr, rfl⟩ := List.mem_map.mp hk
          obtain rfl := List.mem_singleton.mp hk'
          have hnone := List.find?_eq_none.mp hfind r hr
          rwa [decide_eq_true_eq] at hnone
      simp only
      rw [dif_pos hvalid]
      exact ⟨_, rfl, List.map_append⟩

/-- A call that is not accepted returns an error and leaves the table as it was. -/
theorem apply_not_accepted (hno : ¬c.Accepted) : ∃ e, c.apply t = (.err e, t) := by
  obtain ⟨inTx, env, job⟩ := c
  cases hens : env.ensured with
  | error e => exact ⟨e, by cases inTx <;> simp [EnqueueCall.apply, enqueue, enqueueInTx, hens]⟩
  | ok u =>
      cases hins : insertJob t env.now env.newId job with
      | error e => exact ⟨e, by cases inTx <;> simp [EnqueueCall.apply, enqueue, enqueueInTx, hens, hins]⟩
      | ok res =>
          have hcasts : CastsFit job := by
            by_contra hcasts
            simp [insertJob, hcasts] at hins
          -- so it is the notification inside the transaction that failed
          have hnot : inTx = true ∧ env.notified ≠ .ok () := by
            by_contra hcon
            rw [not_and_not_right] at hcon
            exact hno ⟨hens, hcasts, hcon⟩
          obtain ⟨rfl, hnotified⟩ := hnot
          cases hn : env.notified with
          | ok u => exact absurd hn hnotified
          | error e => exact ⟨e, by simp [EnqueueCall.apply, enqueueInTx, hens, hins, hn]⟩

/-- An accepted call answers as its insert does. -/
theorem apply_accepted (hacc : c.Accepted) {id : Uuid} {t' : JobsTable}
    (hins : insertJob t c.env.now c.env.newId c.job = .ok (id, t')) : c.apply t = (.ok id, t') := by
  obtain ⟨hens, _, hnot⟩ := hacc
  obtain ⟨inTx, env, job⟩ := c
  simp only at hens hnot hins
  cases inTx with
  | false => simp [EnqueueCall.apply, enqueue, hens, hins]
  | true => simp [EnqueueCall.apply, enqueueInTx, hens, hins, hnot rfl]

end Step

/-- **The step lemma.** What a call by an unused id does to the indexed columns: no row goes, a row comes only
    from an accepted call and is its own, and the id an accepted call returns stands under its key in its
    dataset. -/
theorem apply_keys {t : JobsTable} {c : EnqueueCall} (hfresh : c.env.newId ∉ (keysOf t).map (·.id)) :
    (∀ k ∈ keysOf t, k ∈ keysOf (c.apply t).2) ∧
    (∀ k ∈ keysOf (c.apply t).2, k ∈ keysOf t ∨ c.Accepted ∧ k = c.key) ∧
    (∀ id, (c.apply t).1 = .ok id → c.Accepted ∧ ∀ key, c.job.idempotencyKey = some key →
      { id := id, datasetId := c.datasetId, idempotencyKey := some key : JobKey } ∈ keysOf (c.apply t).2) ∧
    (c.Accepted → ∃ id, (c.apply t).1 = .ok id) := by
  by_cases hacc : c.Accepted
  · rcases insertJob_cases (t := t) hacc.2.1 hfresh with ⟨t', k, hk, hconf, hid, hkeys⟩ | ⟨t', hid, hkeys⟩
    · -- the row in conflict is the one that stands under the key
      rw [apply_accepted hacc hid]
      simp only [hkeys]
      refine ⟨fun k hk => hk, fun k hk => Or.inl hk, ?_, fun _ => ⟨k.id, rfl⟩⟩
      intro id hret
      refine ⟨hacc, fun key hkey => ?_⟩
      obtain rfl : k.id = id := by injection hret
      obtain ⟨hds, _, hsame⟩ := hconf
      have heq : k = { id := k.id, datasetId := c.datasetId, idempotencyKey := some key } := by
        rw [← hkey]
        obtain ⟨kid, kds, kkey⟩ := k
        simp only [EnqueueCall.key] at hds hsame
        rw [hds, hsame]
      rw [← heq]
      exact hk
    · rw [apply_accepted hacc hid]
      simp only [hkeys, List.mem_append, List.mem_singleton]
      refine ⟨fun k hk => Or.inl hk, ?_, ?_, fun _ => ⟨c.env.newId, rfl⟩⟩
      · rintro k (hk | rfl)
        · exact Or.inl hk
        · exact Or.inr ⟨hacc, rfl⟩
      · intro id hret
        refine ⟨hacc, fun key hkey => Or.inr ?_⟩
        obtain rfl : c.env.newId = id := by injection hret
        rw [EnqueueCall.key, hkey]
  · obtain ⟨e, he⟩ := apply_not_accepted (t := t) hacc
    rw [he]
    refine ⟨fun k hk => hk, fun k hk => Or.inl hk, ?_, fun h => absurd h hacc⟩
    intro id hret
    cases hret

/-! ### Whole sequences -/

theorem mem_returned_cons {t : JobsTable} {c c' : EnqueueCall} {rest : List EnqueueCall} {id : Uuid} :
    (c', id) ∈ returned (c :: rest) t ↔
      (c' = c ∧ (c.apply t).1 = .ok id) ∨ (c', id) ∈ returned rest (c.apply t).2 := by
  rw [returned]
  cases c.apply t with
  | mk outcome t' =>
      cases outcome with
      | ok new => simp only [List.mem_cons, Prod.mk.injEq, Outcome.ok.injEq, eq_comm]
      | err message => simp
      | panic => simp

/-- **The run lemma.** The same, over a sequence of calls by distinct unused ids. -/
theorem enqueueAll_keys (calls : List EnqueueCall) : ∀ t : JobsTable,
    (calls.map (·.env.newId)).Nodup → (∀ c ∈ calls, c.env.newId ∉ (keysOf t).map (·.id)) →
    (∀ k ∈ keysOf t, k ∈ keysOf (enqueueAll calls t)) ∧
    (∀ k ∈ keysOf (enqueueAll calls t), k ∈ keysOf t ∨ ∃ c ∈ calls, c.Accepted ∧ k = c.key) ∧
    (∀ c id, (c, id) ∈ returned calls t → (c ∈ calls ∧ c.Accepted) ∧ ∀ key, c.job.idempotencyKey = some key →
      { id := id, datasetId := c.datasetId, idempotencyKey := some key : JobKey } ∈
        keysOf (enqueueAll calls t)) ∧
    (∀ c ∈ calls, c.Accepted → ∃ id, (c, id) ∈ returned calls t) := by
  induction calls with
  | nil =>
      intro t _ _
      refine ⟨fun k hk => hk, fun k hk => Or.inl hk, ?_, ?_⟩
      · intro c id h; exact absurd h List.not_mem_nil
      · intro c h; exact absurd h List.not_mem_nil
  | cons c rest ih =>
      intro t hnd hfresh
      obtain ⟨hnotin, hnd⟩ := List.nodup_cons.mp hnd
      obtain ⟨hkeep, hnew, hok, hret⟩ := apply_keys (hfresh c List.mem_cons_self)
      have hfresh' : ∀ c' ∈ rest, c'.env.newId ∉ (keysOf (c.apply t).2).map (·.id) := by
        intro c' hc' hmem
        obtain ⟨k, hk, hkid⟩ := List.mem_map.mp hmem
        rcases hnew k hk with hk | ⟨_, rfl⟩
        · exact hfresh c' (List.mem_cons_of_mem _ hc') (List.mem_map.mpr ⟨k, hk, hkid⟩)
        · exact hnotin (List.mem_map.mpr ⟨c', hc', hkid.symm⟩)
      obtain ⟨hkeep', hnew', hok', hret'⟩ := ih (c.apply t).2 hnd hfresh'
      refine ⟨fun k hk => hkeep' k (hkeep k hk), ?_, ?_, ?_⟩
      · intro k hk
        rcases hnew' k hk with hk | ⟨c', hc', hacc, rfl⟩
        · rcases hnew k hk with hk | ⟨hacc, rfl⟩
          · exact Or.inl hk
          · exact Or.inr ⟨c, List.mem_cons_self, hacc, rfl⟩
        · exact Or.inr ⟨c', List.mem_cons_of_mem _ hc', hacc, rfl⟩
      · intro c' id' h
        rcases mem_returned_cons.mp h with ⟨rfl, hid⟩ | h
        · -- the row it returns stays there through the rest of the calls
          obtain ⟨hacc, hmem⟩ := hok id' hid
          exact ⟨⟨List.mem_cons_self, hacc⟩, fun key hkey => hkeep' _ (hmem key hkey)⟩
        · obtain ⟨⟨hmem, hacc⟩, hrest⟩ := hok' c' id' h
          exact ⟨⟨List.mem_cons_of_mem _ hmem, hacc⟩, hrest⟩
      · intro c' hc' hacc
        rcases List.mem_cons.mp hc' with rfl | hc'
        · obtain ⟨id, hid⟩ := hret hacc
          exact ⟨id, mem_returned_cons.mpr (Or.inl ⟨rfl, hid⟩)⟩
        · obtain ⟨id, hid⟩ := hret' c' hc' hacc
          exact ⟨id, mem_returned_cons.mpr (Or.inr hid)⟩

/-- **When enqueueing is idempotent.** Over every sequence of calls by distinct fresh ids from an empty table,
    each key stands for one id and one row if and only if the accepted calls that carry a key agree on
    `dataset_id_for(queue, run_at)`. -/
theorem idempotency_law_iff (calls : List EnqueueCall) (hids : (calls.map (·.env.newId)).Nodup) :
    IdempotencyLaw calls ↔ KeysStayInDataset calls := by
  obtain ⟨_, hnew, hok, hret⟩ := enqueueAll_keys calls JobsTable.empty hids (fun _ _ => List.not_mem_nil)
  constructor
  · rintro ⟨_, hrows⟩ c c' key hc hc' hacc hacc' hkey hkey'
    obtain ⟨id, hid⟩ := hret c hc hacc
    obtain ⟨id', hid'⟩ := hret c' hc' hacc'
    obtain ⟨r, hr, hrk⟩ := List.mem_map.mp ((hok c id hid).2 key hkey)
    obtain ⟨r', hr', hrk'⟩ := List.mem_map.mp ((hok c' id' hid').2 key hkey')
    -- one row carries the key, so both calls computed its dataset
    have hsame : r = r' :=
      hrows r r' key hr hr' (congrArg JobKey.idempotencyKey hrk) (congrArg JobKey.idempotencyKey hrk')
    subst hsame
    exact (congrArg JobKey.datasetId hrk).symm.trans (congrArg JobKey.datasetId hrk')
  · intro hstay
    constructor
    · intro c id c' id' key hid hid' hkey hkey'
      obtain ⟨⟨hc, hacc⟩, hmem⟩ := hok c id hid
      obtain ⟨⟨hc', hacc'⟩, hmem'⟩ := hok c' id' hid'
      have hds := hstay c c' key hc hc' hacc hacc' hkey hkey'
      have heq := JobsTable.key_eq_of_conflicts (hmem key hkey) (hmem' key hkey') ⟨hds, rfl, rfl⟩
      exact congrArg JobKey.id heq
    · intro r r' key hr hr' hkey hkey'
      have hmem : r.key ∈ keysOf (enqueueAll calls JobsTable.empty) := List.mem_map_of_mem hr
      have hmem' : r'.key ∈ keysOf (enqueueAll calls JobsTable.empty) := List.mem_map_of_mem hr'
      rcases hnew _ hmem with habs | ⟨c, hc, hacc, hck⟩
      · exact absurd habs List.not_mem_nil
      · rcases hnew _ hmem' with habs | ⟨c', hc', hacc', hck'⟩
        · exact absurd habs List.not_mem_nil
        · have h1 : c.job.idempotencyKey = some key := (congrArg JobKey.idempotencyKey hck).symm.trans hkey
          have h2 : c'.job.idempotencyKey = some key := (congrArg JobKey.idempotencyKey hck').symm.trans hkey'
          have hds := hstay c c' key hc hc' hacc hacc' h1 h2
          have hconf : r.key.Conflicts r'.key := by
            rw [hck, hck']
            exact ⟨hds, by rw [EnqueueCall.key, h1]; rfl, h1.trans h2.symm⟩
          exact JobsTable.eq_of_id hr hr' (congrArg JobKey.id (JobsTable.key_eq_of_conflicts hmem hmem' hconf))

/-- A keyed job of the queue `emails`. -/
def keyedEmail (runAt : DateTime) : NewJob :=
  { queue := "emails", jobType := "welcome", payloadJson := "{}", idempotencyKey := some "user-1", runAt := runAt,
    deadlineAt := none, timeoutSeconds := none, recurringIntervalSeconds := none, priority := 0,
    maxAttempts := 25 }

/-- A call that enqueues it. -/
def emailCall (newId : Uuid) (runAt : DateTime) : EnqueueCall :=
  { inTx := false, env := ⟨runAt, newId, .ok (), .ok ()⟩, job := keyedEmail runAt }

/-- Two calls within one hour: the second returns the first one's id. -/
theorem idempotency_law_one_hour : IdempotencyLaw [emailCall 1 0, emailCall 2 1000000000] := by
  refine (idempotency_law_iff _ (by decide)).mpr ?_
  intro c c' key hc hc' _ _ _ _
  have hds : ∀ d ∈ [emailCall 1 0, emailCall 2 1000000000], d.datasetId = "emails_19700101_00" := by
    intro d hd
    rcases List.mem_cons.mp hd with rfl | hd
    · decide
    · rw [List.mem_singleton.mp hd]; decide
  rw [hds c hc, hds c' hc']

/-- The same job enqueued again one hour later: two ids and two rows for one key. -/
theorem idempotency_law_fails : (returned [emailCall 1 0, emailCall 2 3600000000000] JobsTable.empty).map (·.2)
    = [1, 2] ∧ ¬IdempotencyLaw [emailCall 1 0, emailCall 2 3600000000000] := by
  have hret : returned [emailCall 1 0, emailCall 2 3600000000000] JobsTable.empty =
      [(emailCall 1 0, 1), (emailCall 2 3600000000000, 2)] := by
    simp only [returned]
    rfl
  refine ⟨by rw [hret]; rfl, ?_⟩
  rintro ⟨hid, _⟩
  rw [hret] at hid
  have hbad := hid (emailCall 1 0) 1 (emailCall 2 3600000000000) 2 "user-1" (by simp) (by simp) rfl rfl
  exact absurd hbad (by decide)

end Azums.Postgres
