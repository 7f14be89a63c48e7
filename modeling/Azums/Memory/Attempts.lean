import Azums.Memory.Moves

/-!
# `Memory.Attempts` — what a call can do to an attempt

The counterpart of `Memory.Moves` for the attempts map. An attempt is opened by `start_attempts_batch`, closed by an
acknowledgement, a cancellation or the reaper, and removed with the history of an archived job; `apply_attemptEntry`
says that nothing else happens to it. Only attempts of running jobs are opened or closed.
-/

namespace Azums.Memory

open Function (update)

variable {s : InnerState} {now : DateTime}

/-! ## The changes of an attempt -/

/-- The attempt ids a call draws. -/
def MemOp.drawn : MemOp → List Uuid
  | startAttempts _ requests _ => requests.map (·.2)
  | _ => []

/-- What closing an attempt makes of it: its outcome changes, not what it is an attempt of. -/
structure Closes (att att' : MemoryAttempt) : Prop where
  wasRunning : att.status = "running"
  ended : att'.status = "succeeded" ∨ att'.status = "failed"
  id : att'.id = att.id
  jobId : att'.jobId = att.jobId
  attemptNo : att'.attemptNo = att.attemptNo

theorem Closes.not_running {att att' : MemoryAttempt} (h : Closes att att') : att'.status ≠ "running" := by
  rcases h.ended with he | he <;> rw [he] <;> decide

/-- An attempt is stored under its own id. -/
def Keyed (s : InnerState) : Prop := ∀ a att, s.attempts a = some att → att.id = a

/-- What one call may make of the entry of the attempts map under `a`. -/
inductive AttemptEntry (op : MemOp) (s s' : InnerState) (a : Uuid) : Prop where
  | kept (same : s'.attempts a = s.attempts a) : AttemptEntry op s s' a
  | started {now : DateTime} {jobId : Uuid} {attemptNo : Int} {workerId : String} {job : Job}
      (drawn : a ∈ op.drawn) (after : s'.attempts a = some (startedAttempt now a jobId attemptNo workerId))
      (leased : s.jobs jobId = some job) (running : job.status = "running")
      (holder : job.lockedBy = some workerId) : AttemptEntry op s s' a
  | closed {att att' : MemoryAttempt} {job : Job} (before : s.attempts a = some att)
      (after : s'.attempts a = some att') (closes : Closes att att') (leased : s.jobs att.jobId = some job)
      (running : job.status = "running") : AttemptEntry op s s' a
  | removed {att : MemoryAttempt} (before : s.attempts a = some att) (after : s'.attempts a = none)
      (archived : (s.archive att.jobId).isSome) : AttemptEntry op s s' a

/-- An accepted acknowledgement: the lease and the attempt it has checked, and how it closed the attempt. -/
structure Accepted (s s' : InnerState) (jobId attemptId : Uuid) (workerId : String)
    (close : MemoryAttempt → MemoryAttempt) : Prop where
  lease : ∃ job, s.jobs jobId = some job ∧ job.status = "running" ∧ job.lockedBy = some workerId
  attempt : ∃ att, s.attempts attemptId = some att ∧ att.status = "running" ∧ att.jobId = jobId ∧
    s'.attempts = update s.attempts attemptId (some (close att))
  attemptCounts : s'.attemptCounts = s.attemptCounts

theorem markSucceeded_accepted (s : InnerState) (now : DateTime) (newId jobId attemptId : Uuid)
    (workerId : String) (latencyMs : Int) :
    (markSucceeded s now newId jobId attemptId workerId latencyMs).2 = s ∧
        (markSucceeded s now newId jobId attemptId workerId latencyMs).1 ≠ .ok () ∨
      (markSucceeded s now newId jobId attemptId workerId latencyMs).1 = .ok () ∧
        Accepted s (markSucceeded s now newId jobId attemptId workerId latencyMs).2 jobId attemptId workerId
          (succeededAttempt now latencyMs) := by
  rcases markSucceeded_cases s now newId jobId attemptId workerId latencyMs with
    ⟨_, heq⟩ | ⟨_, _, e, heq⟩ | ⟨next, job, att, _, hlease, ⟨hatt, hrun, hj⟩, heq⟩
  · rw [heq]
    exact Or.inl ⟨rfl, by simp⟩
  · rw [heq]
    exact Or.inl ⟨rfl, by simp⟩
  · rw [heq]
    exact Or.inr ⟨rfl, ⟨job, hlease⟩, ⟨att, hatt, hrun, hj, insertNext_attempts next⟩, insertNext_attemptCounts next⟩

theorem rescheduleForRetry_accepted (s : InnerState) (now : DateTime) (jobId attemptId : Uuid)
    (workerId : String) (latencyMs : Int) (nextRunAt : DateTime) (errorCode errorMessage : String) :
    (rescheduleForRetry s now jobId attemptId workerId latencyMs nextRunAt errorCode errorMessage).2 = s ∧
        (∃ e, (rescheduleForRetry s now jobId attemptId workerId latencyMs nextRunAt errorCode
          errorMessage).1 = .err e) ∨
      (rescheduleForRetry s now jobId attemptId workerId latencyMs nextRunAt errorCode errorMessage).1 = .ok () ∧
        Accepted s (rescheduleForRetry s now jobId attemptId workerId latencyMs nextRunAt errorCode
          errorMessage).2 jobId attemptId workerId (failedAttempt now latencyMs errorCode errorMessage) := by
  rcases rescheduleForRetry_cases s now jobId attemptId workerId latencyMs nextRunAt errorCode errorMessage with
    ⟨_, e, heq⟩ | ⟨job, att, hjob, ⟨ha, hrun, hj⟩, heq⟩
  · rw [heq]
    exact Or.inl ⟨rfl, e, rfl⟩
  · rw [heq]
    exact Or.inr ⟨rfl, ⟨job, hjob⟩, ⟨att, ha, hrun, hj, rfl⟩, rfl⟩

theorem markDlq_accepted (s : InnerState) (now : DateTime) (jobId attemptId : Uuid) (workerId : String)
    (latencyMs : Int) (reasonCode errorCode errorMessage : String) :
    (markDlq s now jobId attemptId workerId latencyMs reasonCode errorCode errorMessage).2 = s ∧
        (∃ e, (markDlq s now jobId attemptId workerId latencyMs reasonCode errorCode errorMessage).1 = .err e) ∨
      (markDlq s now jobId attemptId workerId latencyMs reasonCode errorCode errorMessage).1 = .ok () ∧
        Accepted s (markDlq s now jobId attemptId workerId latencyMs reasonCode errorCode errorMessage).2 jobId
          attemptId workerId (failedAttempt now latencyMs errorCode errorMessage) := by
  rcases markDlq_cases s now jobId attemptId workerId latencyMs reasonCode errorCode errorMessage with
    ⟨_, e, heq⟩ | ⟨job, att, hjob, ⟨ha, hrun, hj⟩, heq⟩
  · rw [heq]
    exact Or.inl ⟨rfl, e, rfl⟩
  · rw [heq]
    exact Or.inr ⟨rfl, ⟨job, hjob⟩, ⟨att, ha, hrun, hj, rfl⟩, rfl⟩

theorem closes_succeededAttempt {att : MemoryAttempt} (h : att.status = "running") (latencyMs : Int) :
    Closes att (succeededAttempt now latencyMs att) :=
  ⟨h, Or.inl rfl, rfl, rfl, rfl⟩

theorem closes_failedAttempt {att : MemoryAttempt} (h : att.status = "running") (latencyMs : Int)
    (errorCode errorMessage : String) : Closes att (failedAttempt now latencyMs errorCode errorMessage att) :=
  ⟨h, Or.inr rfl, rfl, rfl, rfl⟩

theorem closes_leaseExpiredAttempt {att : MemoryAttempt} (h : att.status = "running") :
    Closes att (leaseExpiredAttempt now att) :=
  ⟨h, Or.inr rfl, rfl, rfl, rfl⟩

/-- An acknowledgement closes its attempt and keeps the others. -/
theorem Accepted.attemptEntry {op : MemOp} {s' : InnerState} {jobId attemptId : Uuid} {workerId : String}
    {close : MemoryAttempt → MemoryAttempt} (h : Accepted s s' jobId attemptId workerId close)
    (hclose : ∀ att : MemoryAttempt, att.status = "running" → Closes att (close att)) (a : Uuid) :
    AttemptEntry op s s' a := by
  obtain ⟨job, hjob, hst, _⟩ := h.lease
  obtain ⟨att, hatt, hrun, hj, hmap⟩ := h.attempt
  by_cases ha : a = attemptId
  · subst ha
    subst hj
    exact .closed hatt (by rw [hmap, Function.update_self]) (hclose att hrun) hjob hst
  · exact .kept (by rw [hmap, Function.update_of_ne ha])

/-- One more `mark_succeeded` in a call that starts nothing: what the call has closed so far, it has closed once. -/
theorem AttemptEntry.markSucceeded {op : MemOp} {t : InnerState} (hjobs : ∀ id, JobEntry op s t id)
    (hnever : NeverStarts op) (hdrawn : op.drawn = []) (h : ∀ a, AttemptEntry op s t a) (newId jobId attemptId : Uuid)
    (workerId : String) (latencyMs : Int) (a : Uuid) :
    AttemptEntry op s (markSucceeded t now newId jobId attemptId workerId latencyMs).2 a := by
  rcases markSucceeded_accepted t now newId jobId attemptId workerId latencyMs with ⟨hsame, _⟩ | ⟨_, hacc⟩
  · rw [hsame]
    exact h a
  · obtain ⟨job, hjob, hst, _⟩ := hacc.lease
    obtain ⟨att, hatt, hrun, hj, hmap⟩ := hacc.attempt
    have hafter := congrFun hmap a
    have hnot : a ∉ op.drawn := by
      rw [hdrawn]
      exact List.not_mem_nil
    by_cases ha : a = attemptId
    · subst ha
      rw [Function.update_self] at hafter
      have hjob' := (hjobs jobId).running_before hnever hjob hst
      subst hj
      -- the attempt still runs, so the call has not touched it yet
      cases h a with
      | kept same => exact .closed (same ▸ hatt) hafter (closes_succeededAttempt hrun _) hjob' hst
      | started drawn _ _ _ _ => exact absurd drawn hnot
      | closed _ after closes _ _ =>
          rw [hatt] at after
          cases after
          exact absurd hrun closes.not_running
      | removed _ after _ => rw [hatt] at after; cases after
    · rw [Function.update_of_ne ha] at hafter
      cases h a with
      | kept same => exact .kept (hafter.trans same)
      | started drawn _ _ _ _ => exact absurd drawn hnot
      | closed before after closes leased running => exact .closed before (hafter.trans after) closes leased running
      | removed before after archived => exact .removed before (hafter.trans after) archived

theorem markSucceededBatch_attemptEntry {workerId : String} (updates : List (DateTime × Uuid × Uuid × Uuid × Int))
    (hfresh : ∀ u ∈ updates, Unused s u.2.1) (a : Uuid) :
    AttemptEntry (.markSucceededBatch updates workerId) s (markSucceededBatch workerId updates s).2 a := by
  obtain ⟨_, _, hentry, _⟩ := markSucceededBatch_keeps (I := fun rest t =>
    (∀ id, JobEntry (.markSucceededBatch updates workerId) s t id) ∧
      (∀ a, AttemptEntry (.markSucceededBatch updates workerId) s t a) ∧ ∀ u ∈ rest, Unused s u.2.1) (by
      rintro now newId jobId attemptId latencyMs rest t ⟨hjobs, hentry, hfresh⟩
      refine ⟨?_, ?_, fun u hu => hfresh u (List.mem_cons_of_mem _ hu)⟩
      · exact JobEntry.markSucceeded hjobs (fun _ _ hst => .succeedBatch hst) (neverStarts_markSucceededBatch _ _)
          (hfresh _ List.mem_cons_self) attemptId workerId latencyMs
      · exact AttemptEntry.markSucceeded hjobs (neverStarts_markSucceededBatch _ _) rfl hentry newId jobId attemptId
          workerId latencyMs) updates s
    ⟨fun id => .of_eq rfl, fun a => .kept rfl, hfresh⟩
  exact hentry a

/-- The loop of `start_attempts_batch`, however far it gets: the attempts map, entry by entry. -/
theorem startEach_attempts (now : DateTime) (workerId : String) (requests : List (Uuid × Uuid)) :
    ∀ s : InnerState, (requests.map (·.2)).Nodup →
      ∀ a, (startEach now workerId requests s).2.attempts a = s.attempts a ∨
        ∃ jobId attemptNo job, (jobId, a) ∈ requests ∧ s.jobs jobId = some job ∧ job.status = "running" ∧
          job.lockedBy = some workerId ∧ (startEach now workerId requests s).2.attempts a =
            some (startedAttempt now a jobId attemptNo workerId) := by
  induction requests with
  | nil => intro s _ a; exact Or.inl rfl
  | cons request rest ih =>
      intro s hnd a
      obtain ⟨jobId, attemptId⟩ := request
      obtain ⟨hnotin, hnd⟩ := List.nodup_cons.mp hnd
      by_cases hl : Startable s workerId jobId
      · rw [startEach_cons now attemptId rest hl, prependAttempt_snd]
        obtain ⟨job, hjob, hst, hby⟩ := hl.leased
        rcases ih (recordAttempt s now workerId jobId attemptId ((s.attemptCounts jobId).getD 0 + 1)) hnd a with
          hsame | ⟨jobId', no, job', hin, hrest⟩
        · by_cases ha : a = attemptId
          · -- the attempt of this round: the ids are distinct, so the rest of the loop leaves it alone
            subst ha
            refine Or.inr ⟨jobId, (s.attemptCounts jobId).getD 0 + 1, job, List.mem_cons_self, hjob, hst, hby, ?_⟩
            rw [hsame]
            exact Function.update_self ..
          · refine Or.inl (hsame.trans ?_)
            exact Function.update_of_ne ha ..
        · exact Or.inr ⟨jobId', no, job', List.mem_cons_of_mem _ hin, hrest⟩
      · obtain ⟨_, hm, _⟩ := startEach_stops now attemptId rest hl
        rw [hm]
        exact Or.inl rfl

/-- The reaper closes the running attempts of the jobs it requeues. -/
theorem reap_attempts (s : InnerState) (now : DateTime) (order : List Uuid) (a : Uuid) :
    (reapExpiredLocks s now order).2.attempts a = (s.attempts a).map (fun att =>
      if att.jobId ∈ ((order.filterMap s.jobs).filter (leaseExpired now)).map (·.id) ∧ att.status = "running"
      then leaseExpiredAttempt now att else att) :=
  congrFun (reap_jobs s now order).2.attempts a

theorem leaseExpired_running {job : Job} (h : leaseExpired now job = true) : job.status = "running" := by
  simp only [leaseExpired, Bool.and_eq_true, beq_iff_eq] at h
  exact h.1

theorem reap_attemptEntry {op : MemOp} (h : WellFormed s) {order : List Uuid} (ho : Enumerates s.jobs order)
    (a : Uuid) : AttemptEntry op s (reapExpiredLocks s now order).2 a := by
  have hmap := reap_attempts s now order a
  cases hatt : s.attempts a with
  | none => exact .kept (by rw [hmap, hatt, Option.map_none])
  | some att =>
      rw [hatt, Option.map_some] at hmap
      split at hmap
      · rename_i hin
        obtain ⟨job, hjob, hexp⟩ := (mem_expired h ho).mp hin.1
        exact .closed hatt hmap (closes_leaseExpiredAttempt hin.2) hjob (leaseExpired_running hexp)
      · exact .kept (hmap.trans hatt.symm)

/-- A fold that at each element takes it or keeps what it has ends with an element. -/
theorem foldl_pick {α : Type} {f : Option α → α → Option α} (hf : ∀ best a, f best a = some a ∨ f best a = best)
    (l : List α) : ∀ best b, l.foldl f best = some b → best = some b ∨ b ∈ l := by
  induction l with
  | nil => intro best b h; exact Or.inl h
  | cons a rest ih =>
      intro best b h
      rcases ih (f best a) b h with hb | hb
      · rcases hf best a with ha | ha
        · rw [ha] at hb
          exact Or.inr (List.mem_cons.mpr (Or.inl (Option.some.inj hb).symm))
        · exact Or.inl (ha ▸ hb)
      · exact Or.inr (List.mem_cons_of_mem _ hb)

/-- The attempt `cancel_job` closes is a running attempt of the job. -/
theorem latestRunningAttempt_some {order : List Uuid} {jobId : Uuid} {att : MemoryAttempt}
    (h : latestRunningAttempt s order jobId = some att) :
    (∃ a, s.attempts a = some att) ∧ att.jobId = jobId ∧ att.status = "running" := by
  unfold latestRunningAttempt at h
  have hmem := (foldl_pick (fun best a => ?_) _ none att h).resolve_left (by simp)
  · obtain ⟨hin, hp⟩ := List.mem_filter.mp hmem
    obtain ⟨a, _, ha⟩ := List.mem_filterMap.mp hin
    rw [Bool.and_eq_true, decide_eq_true_eq, beq_iff_eq] at hp
    exact ⟨⟨a, ha⟩, hp⟩
  · cases best with
    | none => exact Or.inl rfl
    | some b => simp only; split <;> simp

/-- A fold that at each element keeps the larger ends with the largest. -/
theorem foldl_largest {α : Type} {f : Option α → α → Option α} (key : α → Int)
    (hf : ∀ best a, ∃ b, f best a = some b ∧ key a ≤ key b ∧ ∀ c, best = some c → key c ≤ key b) (l : List α) :
    ∀ best b, l.foldl f best = some b → (∀ a ∈ l, key a ≤ key b) ∧ ∀ c, best = some c → key c ≤ key b := by
  induction l with
  | nil =>
      intro best b h
      refine ⟨fun a ha => absurd ha List.not_mem_nil, fun c hc => ?_⟩
      rw [List.foldl_nil, hc] at h
      cases h
      exact le_refl _
  | cons a rest ih =>
      intro best b h
      obtain ⟨hrest, hbest⟩ := ih (f best a) b h
      obtain ⟨m, hm, ha, hc⟩ := hf best a
      have hmb := hbest m hm
      refine ⟨fun x hx => ?_, fun c hcb => (hc c hcb).trans hmb⟩
      rcases List.mem_cons.mp hx with rfl | hx
      · exact ha.trans hmb
      · exact hrest x hx

/-- It has the largest number of them. -/
theorem latestRunningAttempt_largest {order : List Uuid} (ho : Enumerates s.attempts order) {jobId : Uuid}
    {att : MemoryAttempt} (h : latestRunningAttempt s order jobId = some att) {a : Uuid} {att' : MemoryAttempt}
    (hatt : s.attempts a = some att') (hj : att'.jobId = jobId) (hrun : att'.status = "running") :
    att'.attemptNo ≤ att.attemptNo := by
  unfold latestRunningAttempt at h
  refine (foldl_largest (·.attemptNo) (fun best b => ?_) _ none att h).1 att' (List.mem_filter.mpr ⟨?_, ?_⟩)
  · cases best with
    | none => exact ⟨b, rfl, le_refl _, fun c hc => by cases hc⟩
    | some c =>
        simp only
        split
        · rename_i hle
          exact ⟨b, rfl, le_refl _, fun d hd => by cases hd; exact hle⟩
        · rename_i hgt
          exact ⟨c, rfl, by omega, fun d hd => by cases hd; exact le_refl _⟩
  · exact List.mem_filterMap.mpr ⟨a, (ho.complete a).mpr (by rw [hatt]; rfl), hatt⟩
  · simp [hj, hrun]

theorem cancelJob_attemptEntry {op : MemOp} (hk : Keyed s) (attemptOrder : List Uuid) (jobId : Uuid)
    (workerId : Option String) (a : Uuid) :
    AttemptEntry op s (cancelJob s now attemptOrder jobId workerId).2 a := by
  rcases cancelJob_ok s now attemptOrder jobId workerId with ⟨hsame, _⟩ | ⟨job, hjob, _, _, _, _, _, hattempts⟩
  · rw [hsame]
    exact .kept rfl
  · have hafter := congrFun hattempts a
    by_cases hst : job.status = "running"
    · rw [if_pos hst] at hafter
      cases hlatest : latestRunningAttempt s attemptOrder jobId with
      | none => exact .kept (by simpa only [hlatest] using hafter)
      | some att =>
          obtain ⟨⟨b, hb⟩, hj, hrun⟩ := latestRunningAttempt_some hlatest
          -- the attempt is written back under its own id
          have hid : att.id = b := hk b att hb
          rw [hlatest] at hafter
          simp only [hid] at hafter
          by_cases ha : a = b
          · subst ha
            subst hj
            rw [Function.update_self] at hafter
            exact .closed hb hafter (closes_failedAttempt hrun _ _ _) hjob hst
          · rw [Function.update_of_ne ha] at hafter
            exact .kept hafter
    · rw [if_neg hst] at hafter
      exact .kept hafter

/-- Erasing keys one after the other. -/
theorem foldl_erase {ν : Type} (ids : List Uuid) :
    ∀ (m : Uuid → Option ν) (a : Uuid),
      ids.foldl (fun m id => update m id none) m a = if a ∈ ids then none else m a := by
  induction ids with
  | nil => intro m a; simp
  | cons id rest ih =>
      intro m a
      rw [List.foldl_cons, ih]
      by_cases ha : a = id <;> by_cases hr : a ∈ rest <;> simp [ha, hr]

theorem deleteHistory_attemptEntry {op : MemOp} (h : WellFormed s) (hk : Keyed s)
    (archiveOrder attemptOrder : List Uuid) (cutoff : DateTime) (limit : Int) (a : Uuid) :
    AttemptEntry op s (deleteHistoryForSucceededOlderThan s archiveOrder attemptOrder cutoff limit).2 a := by
  have hafter := foldl_erase ((((attemptOrder.filterMap s.attempts).filter
    (fun att => decide (att.startedAt < cutoff) && decide (att.jobId ∈ ((archiveOrder.filterMap s.archive).filter
      (fun j => decide (j.updatedAt < cutoff))).map (·.id)))).take (asUsize limit)).map (·.id)) s.attempts a
  split at hafter
  · rename_i hin
    obtain ⟨att, hatt, rfl⟩ := List.mem_map.mp hin
    obtain ⟨hin, hp⟩ := List.mem_filter.mp (List.mem_of_mem_take hatt)
    obtain ⟨b, _, hb⟩ := List.mem_filterMap.mp hin
    have hid : att.id = b := hk b att hb
    rw [Bool.and_eq_true, decide_eq_true_eq, decide_eq_true_eq] at hp
    obtain ⟨job, hjob, _⟩ := mem_map_id_of_order (fun id job hj => (h.archived id job hj).1) hp.2
    refine .removed (hid ▸ hb) hafter ?_
    rw [hjob, Option.isSome_some]
  · exact .kept hafter

theorem archive_foldl_attempts (ids : List Uuid) :
    ∀ s : InnerState, (ids.foldl archiveJob s).attempts = s.attempts ∧
      (ids.foldl archiveJob s).attemptCounts = s.attemptCounts := by
  induction ids with
  | nil => intro s; exact ⟨rfl, rfl⟩
  | cons i rest ih =>
      intro s
      have hround : (archiveJob s i).attempts = s.attempts ∧ (archiveJob s i).attemptCounts = s.attemptCounts := by
        unfold archiveJob
        cases s.jobs i <;> exact ⟨rfl, rfl⟩
      obtain ⟨hatt, hcounts⟩ := ih (archiveJob s i)
      exact ⟨hatt.trans hround.1, hcounts.trans hround.2⟩

/-- **What a call makes of an attempt.** -/
theorem apply_attemptEntry (h : WellFormed s) (hk : Keyed s) (op : MemOp) (hadm : op.Admissible s)
    (hret : (op.apply s).1 = true) (a : Uuid) : AttemptEntry op s (op.apply s).2 a := by
  cases op with
  | enqueue now newId order new =>
      simp only [MemOp.apply, MemOp.finish_snd]
      exact .kept (congrFun (enqueue_onlyJobs s now newId order new).attempts a)
  | lease now queue workerId leaseSeconds batchSize ordering =>
      obtain ⟨_, _, _, honly⟩ := lease_jobs queue workerId leaseSeconds batchSize ordering (MemOp.finish_fst hret)
      simp only [MemOp.apply, MemOp.finish_snd]
      exact .kept (congrFun honly.attempts a)
  | reap now order =>
      simp only [MemOp.apply, MemOp.finish_snd]
      exact reap_attemptEntry h hadm a
  | startAttempts now requests workerId =>
      simp only [MemOp.apply, MemOp.finish_snd]
      rcases startEach_attempts now workerId requests s hadm.1 a with
        hsame | ⟨jobId, no, job, hin, hjob, hst, hby, hafter⟩
      · exact .kept hsame
      · exact .started (List.mem_map.mpr ⟨_, hin, rfl⟩) hafter hjob hst hby
  | markSucceeded now newId jobId attemptId workerId latencyMs =>
      simp only [MemOp.apply, MemOp.finish_snd]
      rcases markSucceeded_accepted s now newId jobId attemptId workerId latencyMs with ⟨hsame, _⟩ | ⟨_, hacc⟩
      · rw [hsame]; exact .kept rfl
      · exact hacc.attemptEntry (fun att hrun => closes_succeededAttempt hrun _) a
  | markSucceededBatch updates workerId =>
      simp only [MemOp.apply, MemOp.finish_snd]
      exact markSucceededBatch_attemptEntry updates hadm.2 a
  | reschedule now jobId attemptId workerId latencyMs nextRunAt errorCode errorMessage =>
      simp only [MemOp.apply, MemOp.finish_snd]
      rcases rescheduleForRetry_accepted s now jobId attemptId workerId latencyMs nextRunAt errorCode
        errorMessage with ⟨hsame, _⟩ | ⟨_, hacc⟩
      · rw [hsame]; exact .kept rfl
      · exact hacc.attemptEntry (fun att hrun => closes_failedAttempt hrun _ _ _) a
  | markDlq now jobId attemptId workerId latencyMs reasonCode errorCode errorMessage =>
      simp only [MemOp.apply, MemOp.finish_snd]
      rcases markDlq_accepted s now jobId attemptId workerId latencyMs reasonCode errorCode errorMessage with
        ⟨hsame, _⟩ | ⟨_, hacc⟩
      · rw [hsame]; exact .kept rfl
      · exact hacc.attemptEntry (fun att hrun => closes_failedAttempt hrun _ _ _) a
  | extendLease now jobId workerId leaseSeconds =>
      simp only [MemOp.apply, MemOp.finish_snd]
      exact .kept (congrFun (extendLease_onlyJobs s now jobId workerId leaseSeconds).attempts a)
  | cancel now attemptOrder jobId workerId =>
      simp only [MemOp.apply, MemOp.finish_snd]
      exact cancelJob_attemptEntry hk attemptOrder jobId workerId a
  | archive order cutoff limit =>
      simp only [MemOp.apply, MemOp.finish_snd]
      exact .kept (congrFun (archive_foldl_attempts _ s).1 a)
  | deleteHistory archiveOrder attemptOrder cutoff limit =>
      simp only [MemOp.apply, MemOp.finish_snd]
      exact deleteHistory_attemptEntry h hk archiveOrder attemptOrder cutoff limit a
  | replay now newId jobId overrideQueue overrideRunAt =>
      simp only [MemOp.apply, MemOp.finish_snd]
      exact .kept (congrFun (replayJob_onlyJobs s now newId jobId overrideQueue overrideRunAt).attempts a)

/-- Attempts stay stored under their own ids. -/
theorem apply_keyed (h : WellFormed s) (hk : Keyed s) (op : MemOp) (hadm : op.Admissible s)
    (hret : (op.apply s).1 = true) : Keyed (op.apply s).2 := by
  intro a att hatt
  cases apply_attemptEntry h hk op hadm hret a with
  | kept same => exact hk a att (same ▸ hatt)
  | started drawn after leased running holder =>
      rw [after] at hatt
      cases hatt
      rfl
  | closed before after closes leased running =>
      rw [after] at hatt
      cases hatt
      rw [closes.id, hk a _ before]
  | removed before after archived => rw [after] at hatt; cases hatt

/-- The ids a call draws are unused. -/
theorem unused_of_drawn {op : MemOp} (hadm : op.Admissible s) {a : Uuid} (h : a ∈ op.drawn) :
    s.attempts a = none := by
  cases op with
  | startAttempts now requests workerId =>
      obtain ⟨r, hr, rfl⟩ := List.mem_map.mp h
      exact hadm.2 r hr
  | _ => exact absurd h List.not_mem_nil

/-- An attempt that is open after a call which did not draw its id was open before it. -/
theorem AttemptEntry.open_before {op : MemOp} {s' : InnerState} {a : Uuid} {att : MemoryAttempt}
    (h : AttemptEntry op s s' a) (hdrawn : a ∉ op.drawn) (hatt : s'.attempts a = some att)
    (hrun : att.status = "running") : s.attempts a = some att := by
  cases h with
  | kept same => exact same ▸ hatt
  | started drawn after leased running holder => exact absurd drawn hdrawn
  | closed before after closes leased running =>
      rw [hatt] at after
      cases after
      exact absurd hrun closes.not_running
  | removed before after archived => rw [hatt] at after; cases after

end Azums.Memory
