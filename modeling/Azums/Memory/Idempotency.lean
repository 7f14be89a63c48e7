import Azums.Memory.Calls

/-!
# `Memory.Idempotency` — which id an idempotency key stands for

`enqueue` looks for its key among the stored jobs, and `archive_succeeded_older_than` takes jobs out of that map: the
archived record keeps its key, `get_job` and `replay_job` still find it, and `enqueue` does not. So an id that a key
was given is forgotten when its job is archived.

`key_names_one_job` says that all calls of `enqueue` with one key return the same id, in every run in which no
`enqueue` is given a key that an archived job carries. A job keeps its key through every call (`carries_of_step`), no
call but `enqueue` brings a key into the maps (`carries_before`), and two jobs never carry the same one.
-/

namespace Azums.Memory

open Function (update)

/-! ## The law -/

/-- The call is an `enqueue` with this key, and it returns this id. -/
def Returns (s : InnerState) (call : Call) (key : String) (id : Uuid) : Prop :=
  ∃ now newId order new, call = .job (.enqueue now newId order new) ∧ new.idempotencyKey = some key ∧
    (enqueue s now newId order new).1 = .ok id

/-- No `enqueue` is given a key that an archived job carries. -/
def KeyNotArchived (s : InnerState) (call : Call) (_ : InnerState) : Prop :=
  ∀ now newId order new key, call = .job (.enqueue now newId order new) → new.idempotencyKey = some key →
    ∀ id job, s.archive id = some job → job.idempotencyKey ≠ some key

/-- The backend, in the runs in which that is so. -/
def freshKeySystem : System InnerState Call := backendSystem.restrict KeyNotArchived

/-! ## Keys -/

section Keys

variable {s s' : InnerState} {now : DateTime} {id : Uuid} {key : String}

/-- The job under this id, stored or archived, carries the key. -/
def Carries (s : InnerState) (id : Uuid) (key : String) : Prop :=
  ∃ job, getJob s id = some job ∧ job.idempotencyKey = some key

/-- No change of a stored job touches its key. -/
theorem JobMove.idempotencyKey {op : MemOp} {job job' : Job} (h : JobMove op job job') :
    job'.idempotencyKey = job.idempotencyKey := by
  cases h <;> rfl

/-- The keys among the stored jobs were there before, each under the same id. -/
def KeysFrom (m m' : Uuid → Option Job) : Prop :=
  ∀ id job, m' id = some job → job.idempotencyKey.isSome →
    ∃ before, m id = some before ∧ before.idempotencyKey = job.idempotencyKey

variable {m m' m'' : Uuid → Option Job}

theorem KeysFrom.refl (m : Uuid → Option Job) : KeysFrom m m := fun _ job hjob _ => ⟨job, hjob, rfl⟩

theorem KeysFrom.trans (h : KeysFrom m m') (h' : KeysFrom m' m'') : KeysFrom m m'' := by
  intro id job hjob hkey
  obtain ⟨j, hj, heq⟩ := h' id job hjob hkey
  obtain ⟨before, hbefore, heq'⟩ := h id j hj (by rw [heq]; exact hkey)
  exact ⟨before, hbefore, heq'.trans heq⟩

/-- A loop over the job map that leaves the keys alone. -/
theorem KeysFrom.mapAt {f : Job → Job} (hf : ∀ job, (f job).idempotencyKey = job.idempotencyKey) (ids : List Uuid) :
    KeysFrom m (mapAt f ids m) := by
  intro id job hjob _
  by_cases hid : id ∈ ids
  · rw [mapAt_of_mem hid] at hjob
    obtain ⟨before, hbefore, rfl⟩ := Option.map_eq_some_iff.mp hjob
    exact ⟨before, hbefore, (hf before).symm⟩
  · rw [mapAt_of_not_mem hid] at hjob
    exact ⟨job, hjob, rfl⟩

/-- A stored job is written, and keeps its key. -/
theorem KeysFrom.write {jobId : Uuid} {job job' : Job} (hjob : m jobId = some job)
    (hkey : job'.idempotencyKey = job.idempotencyKey) : KeysFrom m (update m jobId (some job')) := by
  intro id j hj _
  rcases update_eq_some hj with ⟨rfl, rfl⟩ | ⟨_, hold⟩
  · exact ⟨job, hjob, hkey.symm⟩
  · exact ⟨j, hold, rfl⟩

/-- A job without a key is added. -/
theorem KeysFrom.insert {new : Job} (hkey : new.idempotencyKey = none) (s : InnerState) :
    KeysFrom s.jobs (insertQueued s new).jobs := by
  intro id job hjob hsome
  rcases update_eq_some hjob with ⟨rfl, rfl⟩ | ⟨_, hold⟩
  · rw [hkey] at hsome
    cases hsome
  · exact ⟨job, hold, rfl⟩

/-! ### One call at a time -/

/-- The next occurrence of a recurring job has no key. -/
theorem recurringJob_key {newId jobId : Uuid} {next : Job} (h : recurringJob s now newId jobId = some (some next)) :
    next.idempotencyKey = none := by
  unfold recurringJob at h
  cases hj : s.jobs jobId with
  | none => rw [hj] at h; cases h
  | some job =>
      cases hi : job.recurringIntervalSeconds with
      | none => simp only [hj, hi] at h; cases h
      | some interval =>
          simp only [hj, hi] at h
          obtain ⟨n, hn, heq⟩ := Option.map_eq_some_iff.mp h
          cases heq
          unfold nextOccurrence at hn
          cases hr : Chrono.addSeconds job.runAt interval with
          | none => rw [hr] at hn; cases hn
          | some nextRunAt =>
              cases hd : job.deadlineAt with
              | none =>
                  simp only [hr, hd] at hn
                  cases hn
                  rfl
              | some deadline =>
                  simp only [hr, hd] at hn
                  obtain ⟨d, _, rfl⟩ := Option.map_eq_some_iff.mp hn
                  rfl

theorem markSucceeded_keys (s : InnerState) (now : DateTime) (newId jobId attemptId : Uuid) (workerId : String)
    (latencyMs : Int) : KeysFrom s.jobs (markSucceeded s now newId jobId attemptId workerId latencyMs).2.jobs := by
  rcases markSucceeded_cases s now newId jobId attemptId workerId latencyMs with
    ⟨_, heq⟩ | ⟨_, _, e, heq⟩ | ⟨next, job, att, hrec, ⟨hjob, _, _⟩, _, heq⟩
  · rw [heq]
    exact .refl _
  · rw [heq]
    exact .refl _
  · rw [heq]
    have hdone : KeysFrom s.jobs (update s.jobs jobId (some (completedJob now job))) := .write hjob rfl
    cases next with
    | none => exact hdone
    | some next => exact hdone.trans (.insert (recurringJob_key hrec) _)

/-- What archiving leaves in the job map was there before. -/
theorem archive_foldl_keys (ids : List Uuid) :
    ∀ s : InnerState, KeysFrom s.jobs (ids.foldl archiveJob s).jobs := by
  induction ids with
  | nil => intro s; exact .refl _
  | cons i rest ih =>
      intro s
      have hround : KeysFrom s.jobs (archiveJob s i).jobs :=
        fun id job hjob _ => ⟨job, archiveJob_jobs s i id hjob, rfl⟩
      exact hround.trans (ih (archiveJob s i))

/-- **Only `enqueue` brings a key in.** -/
theorem apply_keys (op : MemOp) (hret : (op.apply s).1 = true)
    (hother : ∀ now newId order new, op ≠ .enqueue now newId order new) : KeysFrom s.jobs (op.apply s).2.jobs := by
  cases op with
  | enqueue now newId order new => exact absurd rfl (hother now newId order new)
  | lease now queue workerId leaseSeconds batchSize ordering =>
      obtain ⟨t, _, hjobs, _⟩ := lease_jobs queue workerId leaseSeconds batchSize ordering (MemOp.finish_fst hret)
      simp only [MemOp.apply, MemOp.finish_snd]
      rw [hjobs]
      exact (KeysFrom.mapAt (f := deadlineExceeded now) (fun _ => rfl) _).trans
        (.mapAt (f := leasedJob now t workerId) (fun _ => rfl) _)
  | reap now order =>
      simp only [MemOp.apply, MemOp.finish_snd]
      rw [(reap_jobs s now order).1]
      exact .mapAt (f := requeuedJob now) (fun _ => rfl) _
  | startAttempts now requests workerId =>
      simp only [MemOp.apply, MemOp.finish_snd, startAttemptsBatch]
      rw [(startEach_frame requests s).1]
      exact .refl _
  | markSucceeded now newId jobId attemptId workerId latencyMs =>
      simp only [MemOp.apply, MemOp.finish_snd]
      exact markSucceeded_keys s now newId jobId attemptId workerId latencyMs
  | markSucceededBatch updates workerId =>
      simp only [MemOp.apply, MemOp.finish_snd]
      have hone : ∀ now newId jobId attemptId latencyMs (_ : List (DateTime × Uuid × Uuid × Uuid × Int)) t,
          KeysFrom s.jobs t.jobs →
            KeysFrom s.jobs (markSucceeded t now newId jobId attemptId workerId latencyMs).2.jobs :=
        fun now newId jobId attemptId latencyMs _ t h =>
          h.trans (markSucceeded_keys t now newId jobId attemptId workerId latencyMs)
      obtain ⟨_, hkeys⟩ := markSucceededBatch_keeps (I := fun _ t => KeysFrom s.jobs t.jobs) hone updates s (.refl _)
      exact hkeys
  | reschedule now jobId attemptId workerId latencyMs nextRunAt errorCode errorMessage =>
      simp only [MemOp.apply, MemOp.finish_snd]
      rcases rescheduleForRetry_cases s now jobId attemptId workerId latencyMs nextRunAt errorCode errorMessage with
        ⟨_, e, heq⟩ | ⟨job, att, ⟨hjob, _, _⟩, _, heq⟩
      · rw [heq]
        exact .refl _
      · rw [heq]
        exact .write hjob rfl
  | markDlq now jobId attemptId workerId latencyMs reasonCode errorCode errorMessage =>
      simp only [MemOp.apply, MemOp.finish_snd]
      rcases markDlq_cases s now jobId attemptId workerId latencyMs reasonCode errorCode errorMessage with
        ⟨_, e, heq⟩ | ⟨job, att, ⟨hjob, _, _⟩, _, heq⟩
      · rw [heq]
        exact .refl _
      · rw [heq]
        exact .write hjob rfl
  | extendLease now jobId workerId leaseSeconds =>
      simp only [MemOp.apply, MemOp.finish_snd, extendLease]
      cases hjob : s.jobs jobId with
      | none => exact .refl _
      | some job =>
          simp only
          split
          · cases Chrono.addSeconds now leaseSeconds with
            | none => exact .refl _
            | some t => exact .write hjob rfl
          · exact .refl _
  | cancel now attemptOrder jobId workerId =>
      simp only [MemOp.apply, MemOp.finish_snd]
      rcases cancelJob_ok s now attemptOrder jobId workerId with ⟨hsame, _⟩ | ⟨job, hjob, _, _, hjobs, _⟩
      · rw [hsame]
        exact .refl _
      · rw [hjobs]
        exact .write hjob rfl
  | archive order cutoff limit =>
      simp only [MemOp.apply, MemOp.finish_snd]
      exact archive_foldl_keys _ s
  | deleteHistory archiveOrder attemptOrder cutoff limit => exact .refl _
  | replay now newId jobId overrideQueue overrideRunAt =>
      simp only [MemOp.apply, MemOp.finish_snd, replayJob]
      cases getJob s jobId with
      | none => exact .refl _
      | some src => exact .insert rfl s

/-! ### Steps -/

theorem carries_congr (hjobs : s'.jobs = s.jobs) (harchive : s'.archive = s.archive) :
    Carries s' id key ↔ Carries s id key := by
  unfold Carries getJob
  rw [hjobs, harchive]

/-- **A job keeps its key**, through every call. -/
theorem carries_of_step {call : Call} (hwf : WellFormed s) (hstep : backendSystem.step s call s')
    (h : Carries s id key) : Carries s' id key := by
  obtain ⟨job, hget, hkey⟩ := h
  obtain ⟨job', hget', rfl | ⟨_, _, move⟩⟩ := getJob_step hwf hstep hget
  · exact ⟨job', hget', hkey⟩
  · exact ⟨job', hget', move.idempotencyKey.trans hkey⟩

/-- A key that is carried after a call was carried before it, under the same id, unless the call is an `enqueue`. -/
theorem carries_before {call : Call} (hwf : WellFormed s) (hstep : backendSystem.step s call s')
    (hother : ∀ now newId order new, call ≠ .job (.enqueue now newId order new)) (h : Carries s' id key) :
    Carries s id key := by
  rcases backendSystem_step hstep with ⟨op, rfl, hadm, happ⟩ | ⟨_, hsame⟩
  · have hret : (op.apply s).1 = true := by rw [happ]
    have hentry := apply_jobEntry hwf op hadm hret id
    have harchive : s.jobs id = none → (op.apply s).2.archive id = s.archive id := apply_archive_absent op hret
    have hkeys := apply_keys op hret fun now newId order new heq => hother now newId order new (by rw [heq])
    rw [happ] at hentry harchive hkeys
    obtain ⟨job, hget, hkey⟩ := h
    rcases getJob_eq_some.mp hget with hjob | ⟨hnone, harch⟩
    · obtain ⟨before, hbefore, heq⟩ := hkeys id job hjob (by rw [hkey]; rfl)
      exact ⟨before, getJob_eq_some.mpr (Or.inl hbefore), heq.trans hkey⟩
    · -- it is archived: by this call, or before
      cases hentry with
      | stored before after move => rw [hnone] at after; cases after
      | absent before after => exact ⟨job, getJob_eq_some.mpr (Or.inr ⟨before, (harchive before).symm.trans harch⟩), hkey⟩
      | archived before status after kept =>
          rw [kept] at harch
          cases harch
          exact ⟨job, getJob_eq_some.mpr (Or.inl before), hkey⟩
      | added unused after queued => rw [hnone] at after; cases after
  · exact (carries_congr hsame.jobs hsame.archive).mp h

/-- What `enqueue` does with a key: it finds a stored job that carries it, or it stores a job that does. -/
theorem enqueue_cases (now : DateTime) (newId : Uuid) {order : List Uuid} {new : NewJob} (hwf : WellFormed s)
    (ho : Enumerates s.jobs order) (hkey : new.idempotencyKey = some key) :
    (∃ existing, enqueue s now newId order new = (.ok existing.id, s) ∧ s.jobs existing.id = some existing ∧
        existing.idempotencyKey = some key) ∨
      (∀ id job, s.jobs id = some job → job.idempotencyKey ≠ some key) ∧
        enqueue s now newId order new = (.ok newId, insertQueued s (newEntity now newId new)) := by
  unfold enqueue
  rw [hkey, Option.bind_some]
  cases hfind : findByKey s order key with
  | some existing =>
      left
      obtain ⟨id, _, hjob⟩ := List.mem_filterMap.mp (List.mem_of_find?_eq_some hfind)
      have hhas := List.find?_some hfind
      refine ⟨existing, rfl, ?_, by simpa using hhas⟩
      rw [hwf.jobId id existing hjob]
      exact hjob
  | none =>
      right
      refine ⟨fun id job hjob hcarries => ?_, rfl⟩
      have hmem : job ∈ order.filterMap s.jobs :=
        List.mem_filterMap.mpr ⟨id, by rw [ho.complete, hjob]; rfl, hjob⟩
      exact List.find?_eq_none.mp hfind job hmem (by rw [hcarries]; exact beq_self_eq_true _)

/-- After an `enqueue`, the job under the id it returns carries the key. -/
theorem returns_carries {call : Call} (hwf : WellFormed s) (hstep : backendSystem.step s call s')
    (hret : Returns s call key id) : Carries s' id key := by
  obtain ⟨now, newId, order, new, rfl, hkey, hok⟩ := hret
  obtain ⟨⟨_, ho⟩, happ⟩ := hstep
  have hs' : (enqueue s now newId order new).2 = s' := by
    rw [← MemOp.finish_snd (enqueue s now newId order new)]
    exact congrArg Prod.snd happ
  rcases enqueue_cases now newId hwf ho hkey with ⟨existing, heq, hjob, hhas⟩ | ⟨_, heq⟩
  · rw [heq] at hok hs'
    cases hok
    cases hs'
    exact ⟨existing, getJob_eq_some.mpr (Or.inl hjob), hhas⟩
  · rw [heq] at hok hs'
    cases hok
    cases hs'
    exact ⟨_, getJob_eq_some.mpr (Or.inl (Function.update_self ..)), hkey⟩

/-- Two jobs never carry one key. -/
def KeysApart (s : InnerState) : Prop := ∀ key id id', Carries s id key → Carries s id' key → id = id'

theorem carries_insertQueued {new : Job} (h : Carries (insertQueued s new) id key) :
    (id = new.id ∧ new.idempotencyKey = some key) ∨ Carries s id key := by
  obtain ⟨job, hget, hkey⟩ := h
  rcases getJob_eq_some.mp hget with hjob | ⟨hnone, harch⟩
  · rcases update_eq_some hjob with ⟨rfl, rfl⟩ | ⟨_, hold⟩
    · exact Or.inl ⟨rfl, hkey⟩
    · exact Or.inr ⟨job, getJob_eq_some.mpr (Or.inl hold), hkey⟩
  · have hne : id ≠ new.id := by
      rintro rfl
      rw [show (insertQueued s new).jobs new.id = some new from Function.update_self ..] at hnone
      cases hnone
    have hold : s.jobs id = none := (Function.update_of_ne hne ..).symm.trans hnone
    exact Or.inr ⟨job, getJob_eq_some.mpr (Or.inr ⟨hold, harch⟩), hkey⟩

/-- A job is added whose key nobody carries. -/
theorem KeysApart.insertQueued {new : Job} (h : KeysApart s)
    (hnew : ∀ key id, new.idempotencyKey = some key → ¬Carries s id key) : KeysApart (insertQueued s new) := by
  intro key id id' hid hid'
  rcases carries_insertQueued hid with ⟨rfl, hkey⟩ | hold
  · rcases carries_insertQueued hid' with ⟨rfl, _⟩ | hold'
    · rfl
    · exact absurd hold' (hnew key id' hkey)
  · rcases carries_insertQueued hid' with ⟨rfl, hkey⟩ | hold'
    · exact absurd hold (hnew key id hkey)
    · exact h key id id' hold hold'

/-- **The step lemma.** Two jobs carry different keys after a call, if it is no `enqueue` with a key that an archived job
    carries. -/
theorem KeysApart.step {call : Call} (h : KeysApart s) (hwf : WellFormed s) (hstep : backendSystem.step s call s')
    (hfresh : KeyNotArchived s call s') : KeysApart s' := by
  by_cases henq : ∃ now newId order new, call = .job (.enqueue now newId order new)
  · obtain ⟨now, newId, order, new, rfl⟩ := henq
    obtain ⟨⟨_, ho⟩, happ⟩ := hstep
    have hs' : (enqueue s now newId order new).2 = s' := by
      rw [← MemOp.finish_snd (enqueue s now newId order new)]
      exact congrArg Prod.snd happ
    rw [← hs']
    cases hkey : new.idempotencyKey with
    | none =>
        rw [enqueue, hkey]
        refine h.insertQueued fun key id hhas => ?_
        exact absurd (hkey.symm.trans hhas) (by simp)
    | some key =>
        rcases enqueue_cases now newId hwf ho hkey with ⟨_, heq, _⟩ | ⟨hnot, heq⟩
        · rw [heq]
          exact h
        · rw [heq]
          refine h.insertQueued fun key' id hhas hcarries => ?_
          cases hkey.symm.trans hhas
          -- no stored job carries the key, and no archived one
          obtain ⟨job, hget, hjobKey⟩ := hcarries
          rcases getJob_eq_some.mp hget with hjob | ⟨_, harch⟩
          · exact hnot id job hjob hjobKey
          · exact hfresh now newId order new key rfl hkey id job harch hjobKey
  · intro key id id' hid hid'
    have hother : ∀ now newId order new, call ≠ .job (.enqueue now newId order new) :=
      fun now newId order new heq => henq ⟨now, newId, order, new, heq⟩
    exact h key id id' (carries_before hwf hstep hother hid) (carries_before hwf hstep hother hid')

end Keys

/-! ## The law of a run -/

theorem freshKey_reachable {s : InnerState} (h : freshKeySystem.Reachable s) :
    backendSystem.Reachable s ∧ KeysApart s := by
  refine h.invariant (I := fun s => backendSystem.Reachable s ∧ KeysApart s) ?_ ?_
  · rintro s rfl
    refine ⟨.start rfl, fun key id id' hid _ => ?_⟩
    obtain ⟨job, hget, _⟩ := hid
    cases hget
  · rintro s call s' _ ⟨hreach, hapart⟩ ⟨hstep, hfresh⟩
    exact ⟨hreach.next hstep, hapart.step (backend_invariants hreach).1 hstep hfresh⟩

/-- **A key names one job.** In every run in which no `enqueue` is given a key that an archived job carries, any two
    calls of `enqueue` with one key return the same id, whatever is called between them. -/
theorem key_names_one_job {s s' t t' : InnerState} {call call' : Call} {calls : List Call} {key : String}
    {id id' : Uuid} (hs : freshKeySystem.Reachable s) (hstep : freshKeySystem.step s call s')
    (hret : Returns s call key id) (hrun : freshKeySystem.Run s' calls t) (hstep' : freshKeySystem.step t call' t')
    (hret' : Returns t call' key id') : id' = id := by
  have hwf : ∀ {u : InnerState}, freshKeySystem.Reachable u → WellFormed u :=
    fun hu => (backend_invariants (freshKey_reachable hu).1).1
  have hs' : freshKeySystem.Reachable s' := hs.next hstep
  have ht : freshKeySystem.Reachable t := hs'.run hrun
  -- the first job still carries the key when the second call comes
  have hcarried : Carries t id key := by
    refine hrun.keeps (I := fun u => Carries u id key) ?_ hs' (returns_carries (hwf hs) hstep.1 hret)
    exact fun u call u' hu hc hstep => carries_of_step (hwf hu) hstep.1 hc
  have hlater : Carries t' id key := carries_of_step (hwf ht) hstep'.1 hcarried
  exact (freshKey_reachable (ht.next hstep')).2 key id' id (returns_carries (hwf ht) hstep'.1 hret') hlater

/-! ### The first job is completed, and then archived -/

/-- An invoice, under a key. -/
def invoice : NewJob := { welcomeEmail with idempotencyKey := some "invoice-7" }

/-- The state after some of these calls: the job is enqueued, leased, started, completed, archived. -/
def invoiced (n : Nat) : InnerState :=
  (([.enqueue 0 7 [] invoice, .lease 1 "emails" "w1" 30 10 .fifo, .startAttempts 2 [(7, 11)] "w1",
    .markSucceeded 3 8 7 11 "w1" 5, .archive [7] 10 100] : List MemOp).take n).foldl (fun s op => (op.apply s).2)
      InnerState.init

theorem invoiced_enqueued : backendSystem.step InnerState.init (.job (.enqueue 0 7 [] invoice)) (invoiced 1) :=
  ⟨⟨⟨rfl, rfl⟩, enumerates_nil⟩, Prod.ext (by decide) rfl⟩

theorem invoiced_leased :
    backendSystem.step (invoiced 1) (.job (.lease 1 "emails" "w1" 30 10 .fifo)) (invoiced 2) :=
  ⟨trivial, Prod.ext (by decide) rfl⟩

theorem invoiced_started : backendSystem.step (invoiced 2) (.job (.startAttempts 2 [(7, 11)] "w1")) (invoiced 3) :=
  ⟨⟨by decide, by decide⟩, Prod.ext (by decide) rfl⟩

theorem invoiced_completed :
    backendSystem.step (invoiced 3) (.job (.markSucceeded 3 8 7 11 "w1" 5)) (invoiced 4) :=
  ⟨⟨by decide, by decide⟩, Prod.ext (by decide) rfl⟩

/-- The invoice is the only job. -/
theorem invoiced_jobs : Enumerates (invoiced 4).jobs [7] := by
  refine enumerates_singleton (by decide) fun id hne => ?_
  have hjobs : (invoiced 4).jobs id = update (update (update (fun _ => none) 7 _) 7 _) 7 _ id := rfl
  rw [hjobs, Function.update_of_ne hne, Function.update_of_ne hne, Function.update_of_ne hne]

theorem invoiced_archived : backendSystem.step (invoiced 4) (.job (.archive [7] 10 100)) (invoiced 5) :=
  ⟨invoiced_jobs, Prod.ext (by decide) rfl⟩

/-- While the completed job is stored, its key stands for it. -/
theorem completed_key_remembered :
    ∃ id, Returns (invoiced 4) (.job (.enqueue 20 9 [7] invoice)) "invoice-7" id ∧ id = 7 := by
  have hother : ∀ {s s' : InnerState} {op : MemOp}, (∀ now newId order new, op ≠ .enqueue now newId order new) →
      backendSystem.step s (.job op) s' → freshKeySystem.step s (.job op) s' := by
    intro s s' op hop hstep
    refine ⟨hstep, fun now newId order new _ heq => ?_⟩
    exact absurd (by cases heq; rfl) (hop now newId order new)
  have hfirst : freshKeySystem.step InnerState.init (.job (.enqueue 0 7 [] invoice)) (invoiced 1) :=
    ⟨invoiced_enqueued, fun _ _ _ _ _ _ _ _ _ harch => (by cases harch)⟩
  have hrun : freshKeySystem.Run (invoiced 1) [.job (.lease 1 "emails" "w1" 30 10 .fifo),
      .job (.startAttempts 2 [(7, 11)] "w1"), .job (.markSucceeded 3 8 7 11 "w1" 5)] (invoiced 4) :=
    .cons (hother (fun _ _ _ _ heq => (by cases heq)) invoiced_leased)
      (.cons (hother (fun _ _ _ _ heq => (by cases heq)) invoiced_started)
        (.cons (hother (fun _ _ _ _ heq => (by cases heq)) invoiced_completed) (.nil _)))
  have hagain : freshKeySystem.step (invoiced 4) (.job (.enqueue 20 9 [7] invoice)) (invoiced 4) := by
    refine ⟨⟨⟨⟨by decide, by decide⟩, invoiced_jobs⟩, Prod.ext (by decide) rfl⟩, ?_⟩
    intro _ _ _ _ _ _ _ id job harch
    have hnone : (invoiced 4).archive id = none := rfl
    rw [hnone] at harch
    cases harch
  have hret : Returns (invoiced 4) (.job (.enqueue 20 9 [7] invoice)) "invoice-7" 7 :=
    ⟨_, _, _, _, rfl, rfl, rfl⟩
  exact ⟨7, hret, key_names_one_job (.start rfl) hfirst ⟨_, _, _, _, rfl, rfl, rfl⟩ hrun hagain hret⟩

/-- No job is stored after the archiving. -/
theorem archived_jobs : Enumerates (invoiced 5).jobs [] := by
  refine ⟨List.nodup_nil, fun id => ?_⟩
  have hnone : (invoiced 5).jobs id = none := by
    by_cases hid : id = 7
    · subst hid
      decide
    · have hjobs : (invoiced 5).jobs id = update (invoiced 4).jobs 7 none id := rfl
      rw [hjobs, Function.update_of_ne hid]
      by_contra hsome
      have hmem := (invoiced_jobs.complete id).mpr (Option.isSome_iff_ne_none.mpr hsome)
      exact hid (List.mem_singleton.mp hmem)
  simp [hnone]

/-- The invoice is archived and still carries its key, and the key is given to another job. -/
theorem archived_key_forgotten :
    (getJob (invoiced 5) 7).bind (·.idempotencyKey) = some "invoice-7" ∧
    ¬∀ s call s' calls t call' t' key id id', backendSystem.Reachable s → backendSystem.step s call s' →
      Returns s call key id → backendSystem.Run s' calls t → backendSystem.step t call' t' →
        Returns t call' key id' → id' = id := by
  refine ⟨by decide, fun hlaw => ?_⟩
  have hrun : backendSystem.Run (invoiced 1) [.job (.lease 1 "emails" "w1" 30 10 .fifo),
      .job (.startAttempts 2 [(7, 11)] "w1"), .job (.markSucceeded 3 8 7 11 "w1" 5),
      .job (.archive [7] 10 100)] (invoiced 5) :=
    .cons invoiced_leased (.cons invoiced_started (.cons invoiced_completed (.cons invoiced_archived (.nil _))))
  have hagain : backendSystem.step (invoiced 5) (.job (.enqueue 20 9 [] invoice))
      ((MemOp.enqueue 20 9 [] invoice).apply (invoiced 5)).2 :=
    ⟨⟨⟨by decide, by decide⟩, archived_jobs⟩, Prod.ext (by decide) rfl⟩
  have hsame := hlaw _ _ _ _ _ _ _ "invoice-7" 7 9 (.start rfl) invoiced_enqueued ⟨_, _, _, _, rfl, rfl, rfl⟩
    hrun hagain ⟨_, _, _, _, rfl, rfl, rfl⟩
  exact absurd hsame (by decide)

end Azums.Memory
