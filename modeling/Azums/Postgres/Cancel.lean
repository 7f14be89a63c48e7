import Azums.Postgres.Transactions

/-!
# `Postgres.Cancel` — what `cancel_job` may overwrite

`cancel_job` decides on a status that its first statement reads without a lock, and its last statement overwrites
whatever row it finds under the id. So a worker may lease, complete or bury the job between the two.

`CancelLaw` is what a step should do to the committed rows. `cancel_law_rechecked` proves it of every step of every
run in which the rows that `cancel_job` overwrites would still pass its check; `cancel_overwrites` is a run in which
one does not.

The proof follows each transaction through its program. `Change call` says what a transaction may make of a committed
row; `Safe` says of the rest of a program that every statement it can still send keeps to that, whatever the other
clients do to the rows it has not locked. There is one rule for each kind of statement, and a transaction is safe by
applying the rules along its text.
-/

namespace Azums.Postgres

/-! ## The law -/

/-- What a step should do to the committed rows: a terminal row stays as it is; a row becomes `canceled` only when a
    `cancel_job` commits, and only if it was queued or running under the caller's lease; and a `cancel_job` that
    returns `Ok` has done that to its job. -/
structure CancelLaw (s : TxPool) (move : Move ClientId Call) (s' : TxPool) : Prop where
  terminal : ∀ id r, (s.store.jobs.cell id).committed = some r → Terminal r.status →
    (s'.store.jobs.cell id).committed = some r
  canceled : ∀ id r r', (s.store.jobs.cell id).committed = some r → r.status ≠ "canceled" →
    (s'.store.jobs.cell id).committed = some r' → r'.status = "canceled" →
    ∃ i now workerId a, move = .finish i ∧ s.client i = some (.cancelJob now id workerId, .done (.ok a)) ∧
      Cancellable workerId r.status r.lockedBy
  returnsOk : ∀ i now id workerId a, move = .finish i →
    s.client i = some (.cancelJob now id workerId, .done (.ok a)) →
    ∃ r r', (s.store.jobs.cell id).committed = some r ∧ Cancellable workerId r.status r.lockedBy ∧
      (s'.store.jobs.cell id).committed = some r' ∧ r'.status = "canceled"

/-- The row that a `cancel_job` is about to overwrite passes the check it made on the row it has read. -/
def Rechecked (i : ClientId) (call : Call) (c : Stmt) (s : Store) : Prop :=
  match call, c with
  | .cancelJob _ jobId workerId, .updateJobs _ _ =>
      ∃ r, (s.view i).jobs.find? (fun r => r.id == jobId) = some r ∧
        checkCancel jobId r.status r.lockedBy workerId = .ok ()
  | _, _ => True

/-- The steps at which no `cancel_job` overwrites a row that would fail its check. -/
def RecheckedStep (s : TxPool) (move : Move ClientId Call) (_ : TxPool) : Prop :=
  ∀ i call c k, move = .exec i → s.client i = some (call, .call c k) → Rechecked i call c s.store

/-! ## What a transaction may write -/

/-- What a transaction may make of a committed row. -/
structure Change (call : Call) (r₀ r : JobRow) : Prop where
  terminal : Terminal r₀.status → r = r₀
  canceled : r.status = "canceled" → r₀.status = "canceled" ∨
    ∃ now workerId, call = .cancelJob now r₀.id workerId ∧ Cancellable workerId r₀.status r₀.lockedBy

/-- A row that is not terminal may become anything but `canceled`. -/
theorem Change.of_live {call : Call} {r₀ r r' : JobRow} (h : r = r₀ ∨ Change call r₀ r)
    (hlive : ¬Terminal r.status) (hset : r'.status ≠ "canceled") : Change call r₀ r' := by
  constructor
  · intro hterm
    have hsame : r = r₀ := h.elim (fun he => he) (fun hc => hc.terminal hterm)
    rw [hsame] at hlive
    exact absurd hterm hlive
  · intro hc
    exact absurd hc hset

/-- A `cancel_job` at its end: if it returns `Ok`, its pending row is the cancelled one. -/
def Settled (i : ClientId) (call : Call) (outcome : Outcome Answer) (s : Store) : Prop :=
  ∀ now id workerId a, call = .cancelJob now id workerId → outcome = .ok a →
    ∃ r₀ r, (s.jobs.cell id).committed = some r₀ ∧ Cancellable workerId r₀.status r₀.lockedBy ∧
      (s.jobs.cell id).pending = some (i, r) ∧ r.status = "canceled"

/-- Every statement that the rest of a transaction can send keeps to what the transaction may write. Between two of
    them the others may do anything to the rows that it has not locked. -/
def Safe (i : ClientId) (call : Call) : Tx (Outcome Answer) → Store → Prop
  | .done outcome, s => Settled i call outcome s
  | .call c k, s =>
      ∀ s₁, Versions.Steady i s.jobs s₁.jobs → Versions.Guarded i (Change call) s₁.jobs →
        Rechecked i call c s₁ → ∀ r s₂, c.exec i s₁ = some (r, s₂) →
          Versions.Guarded i (Change call) s₂.jobs ∧ Safe i call (k r) s₂

section Rules

variable {i j : ClientId} {call : Call} {s s' : Store}

/-- What the others do in the meantime does not matter. -/
theorem Safe.steady {p : Tx (Outcome Answer)} (h : Safe i call p s) (hst : Versions.Steady i s.jobs s'.jobs) :
    Safe i call p s' := by
  cases p with
  | call c k => exact fun s₁ hst₁ => h s₁ (hst.trans hst₁)
  | done outcome =>
      intro now id workerId a hcall hout
      obtain ⟨r₀, r, hcom, hcan, hpend, hrow⟩ := h now id workerId a hcall hout
      have hcell := hst id (Or.inl ⟨r, hpend⟩)
      rw [← hcell] at hcom hpend
      exact ⟨r₀, r, hcom, hcan, hpend, hrow⟩

/-- A statement leaves the pending rows of every other transaction alone. -/
theorem exec_steady {c : Stmt} {r : c.Reply} (h : c.exec i s = some (r, s')) (hne : j ≠ i) :
    Versions.Steady j s.jobs s'.jobs := by
  cases c with
  | select => cases h; exact Versions.Steady.refl _ _
  | updateJobs p f =>
      obtain ⟨answer, hupd, heq⟩ := Option.map_eq_some_iff.mp h
      cases heq
      exact (Versions.update_wrote hupd).steady hne
  | claimJobs choose f => cases h; exact Versions.claim_wrote.steady hne
  | updateAttempts p fits f =>
      simp only [Stmt.exec] at h
      split at h
      · obtain ⟨answer, _, heq⟩ := Option.map_eq_some_iff.mp h
        cases heq
        exact Versions.Steady.refl _ _
      · cases h
        exact Versions.Steady.refl _ _
  | insertJob row =>
      obtain ⟨jobs, hins, heq⟩ := Option.map_eq_some_iff.mp h
      cases heq
      exact Versions.insert_steady hins hne
  | insertDecision decision =>
      obtain ⟨decisions, _, heq⟩ := Option.map_eq_some_iff.mp h
      cases heq
      exact Versions.Steady.refl _ _

/-! ### One rule for each kind of statement -/

theorem safe_select {k : View → Tx (Outcome Answer)}
    (h : ∀ s₁, Versions.Steady i s.jobs s₁.jobs → Safe i call (k (s₁.view i)) s₁) :
    Safe i call (.call .select k) s := by
  intro s₁ hst hg _ r s₂ hexec
  cases hexec
  exact ⟨hg, h s₁ hst⟩

theorem safe_updateAttempts {p fits : AttemptRow → Bool}
    {f : Table.Assign AttemptRow.id} {k : Except String Nat → Tx (Outcome Answer)}
    (h : ∀ s₁ answer, Versions.Steady i s.jobs s₁.jobs → Safe i call (k answer) s₁) :
    Safe i call (.call (.updateAttempts p fits f) k) s := by
  intro s₁ hst hg _ r s₂ hexec
  simp only [Stmt.exec] at hexec
  split at hexec
  · obtain ⟨answer, _, heq⟩ := Option.map_eq_some_iff.mp hexec
    cases heq
    exact ⟨hg, h _ _ hst⟩
  · cases hexec
    exact ⟨hg, h _ _ hst⟩

theorem safe_insertDecision {decision : PolicyDecision} {k : Unit → Tx (Outcome Answer)}
    (h : ∀ s₁, Versions.Steady i s.jobs s₁.jobs → Safe i call (k ()) s₁) :
    Safe i call (.call (.insertDecision decision) k) s := by
  intro s₁ hst hg _ r s₂ hexec
  obtain ⟨decisions, _, heq⟩ := Option.map_eq_some_iff.mp hexec
  cases heq
  exact ⟨hg, h _ hst⟩

theorem safe_insertJob {row : JobRow} {k : Unit → Tx (Outcome Answer)} (h : ∀ s₁, Safe i call (k ()) s₁) :
    Safe i call (.call (.insertJob row) k) s := by
  intro s₁ _ hg _ r s₂ hexec
  obtain ⟨jobs, hins, heq⟩ := Option.map_eq_some_iff.mp hexec
  cases heq
  exact ⟨hg.insert hins, h _⟩

/-- An update of rows that are not terminal, to something else than `canceled`. -/
theorem safe_updateJobs {p : JobRow → Bool} {f : Table.Assign JobRow.rowId} {k : List JobRow → Tx (Outcome Answer)}
    (hlive : ∀ s₁ : Store, Versions.Steady i s.jobs s₁.jobs → ∀ id r, (s₁.jobs.cell id).visible i = some r →
      p r = true → ¬Terminal r.status ∧ (f.set r).status ≠ "canceled")
    (h : ∀ s₁ rows, Safe i call (k rows) s₁) :
    Safe i call (.call (.updateJobs p f) k) s := by
  intro s₁ hst hg _ rows s₂ hexec
  obtain ⟨answer, hupd, heq⟩ := Option.map_eq_some_iff.mp hexec
  cases heq
  refine ⟨hg.wrote (Versions.update_wrote hupd) ?_, h _ _⟩
  rintro id r₀ r r' _ hvis hr ⟨hp, rfl⟩
  obtain ⟨hterm, hset⟩ := hlive s₁ hst id r hvis hp
  exact Change.of_live hr hterm hset

/-- A claim of rows that are not terminal, for something else than `canceled`. The rows it returns are pending. -/
theorem safe_claimJobs {choose : List JobRow → List JobRow} {f : Table.Assign JobRow.rowId}
    {k : List JobRow → Tx (Outcome Answer)}
    (hlive : ∀ rows, ∀ r ∈ choose rows, ¬Terminal r.status ∧ (f.set r).status ≠ "canceled")
    (h : ∀ (s₁ : Store) rows, (∀ r' ∈ rows, (∃ all, ∃ r ∈ choose all, r' = f.set r) ∧
      (s₁.jobs.cell r'.rowId).pending = some (i, r')) → Safe i call (k rows) s₁) :
    Safe i call (.call (.claimJobs choose f) k) s := by
  intro s₁ _ hg _ rows s₂ hexec
  cases hexec
  refine ⟨hg.wrote Versions.claim_wrote ?_, h _ _ ?_⟩
  · rintro id r₀ r r' _ _ hr ⟨hmem, rfl⟩
    exact Change.of_live hr (hlive _ r hmem).1 (hlive _ r hmem).2
  · intro r' hr'
    obtain ⟨⟨r, hr, he⟩, hpend⟩ := Versions.claim_answer hr'
    exact ⟨⟨_, r, hr, he⟩, hpend⟩

/-- The end of a call that is no `cancel_job` promises nothing. -/
theorem safe_done {outcome : Outcome Answer} (h : ∀ now id workerId, call ≠ .cancelJob now id workerId) :
    Safe i call (.done outcome) s := by
  intro now id workerId a hcall
  exact absurd hcall (h now id workerId)

/-- An error promises nothing either. -/
theorem safe_err {message : String} : Safe i call (.done (.err message)) s := by
  intro now id workerId a _ hout
  cases hout

end Rules

/-! ## Every transaction is safe -/

section Programs

variable {i : ClientId} {call : Call} {s : Store}

/-- The transaction has written no job yet. -/
def Clean (i : ClientId) (s : Store) : Prop := ∀ id r, (s.jobs.cell id).pending ≠ some (i, r)

theorem Clean.steady {s' : Store} (h : Clean i s) (hst : Versions.Steady i s.jobs s'.jobs) : Clean i s' :=
  fun id r hr => h id r (hst.pending.mp hr)

/-- The `UPDATE` of `cancel_job`: here the row passes its check again, and nobody can change it any more. -/
theorem cancelRow_safe {now : DateTime} {jobId : Uuid} {workerId : Option String} (hclean : Clean i s) :
    Safe i (.cancelJob now jobId workerId) (Tx.cancelRow now jobId) s := by
  intro s₁ hst hg hre rows s₂ hexec
  obtain ⟨answer, hupd, heq⟩ := Option.map_eq_some_iff.mp hexec
  cases heq
  obtain ⟨row, hfind, hcheck⟩ := hre
  have hcan := checkCancel_ok hcheck
  -- the row found is the committed one under the id
  obtain ⟨id, hkey, hvis⟩ := List.mem_filterMap.mp (List.mem_of_find?_eq_some hfind)
  have hid : row.rowId = id := s₁.jobs.key_visible hvis
  have hjob : row.id = jobId := by simpa using List.find?_some hfind
  obtain rfl : jobId = id := hjob.symm.trans hid
  have hcom : (s₁.jobs.cell jobId).committed = some row := by
    rcases Cell.visible_cases hvis with hp | ⟨hc, _⟩
    · exact absurd hp (hclean.steady hst jobId row)
    · exact hc
  refine ⟨hg.wrote (Versions.update_wrote hupd) ?_, ?_⟩
  · rintro id r₀ r r' hc hv _ ⟨hp, rfl⟩
    obtain rfl : jobId = id := (beq_iff_eq.mp hp).symm.trans (s₁.jobs.key_visible hv)
    obtain rfl : r₀ = row := Option.some.inj (hc.symm.trans hcom)
    constructor
    · intro hterm
      exact absurd hterm hcan.not_terminal
    · intro _
      exact Or.inr ⟨now, workerId, by rw [hjob], hcan⟩
  · intro now' id' workerId' a hcall hout
    cases hcall
    have hcell := Versions.update_cell hupd hkey hvis (by rw [hjob]; exact beq_self_eq_true jobId)
    refine ⟨row, Tx.canceledRow now row, ?_, hcan, ?_, rfl⟩
    · rw [hcell]
      exact hcom
    · rw [hcell]

theorem cancelJob_safe {now : DateTime} {jobId : Uuid} {workerId : Option String} (hclean : Clean i s) :
    Safe i (.cancelJob now jobId workerId) (Tx.cancelJob now jobId workerId) s := by
  simp only [Tx.cancelJob, Tx.select, Prog.call_bind, Prog.done_bind, Prog.pure_eq]
  refine safe_select fun s₁ hst => ?_
  have hclean₁ := hclean.steady hst
  split
  · exact safe_err
  · split
    · exact safe_err
    · split
      · simp only [Tx.updateAttempts, Prog.call_bind, Prog.done_bind]
        refine safe_select fun s₂ hst₂ => safe_updateAttempts fun s₃ answer hst₃ => ?_
        split
        · exact safe_err
        · exact cancelRow_safe ((hclean₁.steady hst₂).steady hst₃)
      · exact cancelRow_safe hclean₁

/-- A queued or a running row is not terminal, and not cancelled. -/
theorem live_of_status {status : String} (h : status = "queued" ∨ status = "running") :
    ¬Terminal status ∧ status ≠ "canceled" := by
  rcases h with rfl | rfl <;> decide

theorem candidates_queued {rows : List JobRow} {datasetId queue : String} {now : DateTime}
    {ordering : QueueOrdering} {limit : Nat} {r : JobRow}
    (h : r ∈ candidates rows datasetId queue now ordering limit) : r.status = "queued" := by
  have hmem := (List.mem_insertionSort _).mp (List.mem_of_mem_take h)
  simp only [List.mem_filter, runnable, Bool.and_eq_true, beq_iff_eq] at hmem
  exact hmem.2.2.1.2

theorem missedDeadline_queued {queue : String} {now : DateTime} {r : JobRow}
    (h : missedDeadline queue now r = true) : r.status = "queued" := by
  simp only [missedDeadline, Bool.and_eq_true, beq_iff_eq] at h
  exact h.1.1.2

theorem heldRow_running {jobId : Uuid} {workerId : String} {r : JobRow} (h : heldRow jobId workerId r = true) :
    r.status = "running" := by
  simp only [heldRow, Bool.and_eq_true, beq_iff_eq] at h
  exact h.2

theorem expired_running {now : DateTime} {r : JobRow} (h : Tx.expired now r = true) : r.status = "running" := by
  simp only [Tx.expired, Bool.and_eq_true, beq_iff_eq] at h
  exact h.1

section NotCancel

variable (hnc : ∀ now id workerId, call ≠ .cancelJob now id workerId)

include hnc

/-- The throttled end of a lease updates by id, but the row is locked and was queued when it was. -/
theorem throttle_safe (env : LeaseEnv) (req : LeaseRequest) (datasetId : String) (policy : QueuePolicy)
    (running attempts : Nat) (reasonCode : String) :
    Safe i call (Tx.throttle env req datasetId policy running attempts reasonCode) s := by
  simp only [Tx.throttle, Tx.claimJobs, Tx.insertDecision, Tx.updateJobs, Prog.call_bind, Prog.done_bind,
    Prog.pure_eq]
  refine safe_claimJobs (fun rows r hr => live_of_status (Or.inl (candidates_queued hr))) ?_
  intro s₁ locked hlocked
  split
  · exact safe_done hnc
  · rename_i candidate hhead
    obtain ⟨⟨all, r, hr, hsame⟩, hpend⟩ := hlocked candidate (List.mem_of_mem_head? hhead)
    have hqueued : candidate.status = "queued" := by
      rw [hsame]
      exact candidates_queued hr
    refine safe_insertDecision fun s₂ hst₂ => safe_updateJobs ?_ fun s₄ rows => safe_done hnc
    intro s₃ hst₃ id row hvis hp
    -- the row under the candidate's id is the locked one
    obtain rfl : candidate.rowId = id := (beq_iff_eq.mp hp).symm.trans (s₃.jobs.key_visible hvis)
    have hpend₃ := (hst₂.trans hst₃).pending.mpr hpend
    obtain rfl : candidate = row := Option.some.inj ((Cell.visible_own hpend₃).symm.trans hvis)
    exact live_of_status (Or.inl hqueued)

theorem leaseJobsBatch_safe (env : LeaseEnv) (req : LeaseRequest) :
    Safe i call (Tx.leaseJobsBatchWithOrdering env req) s := by
  simp only [Tx.leaseJobsBatchWithOrdering, Tx.updateJobs, Tx.select, Tx.claimJobs, Prog.call_bind, Prog.done_bind,
    Prog.pure_eq]
  refine safe_updateJobs (fun s₁ _ id r _ hp => ⟨(live_of_status (Or.inl (missedDeadline_queued hp))).1, ?_⟩) ?_
  · show "dlq" ≠ "canceled"
    decide
  · intro s₁ swept
    refine safe_select fun s₂ _ => safe_select fun s₃ _ => ?_
    split
    · exact safe_done hnc
    · rename_i datasetId _
      -- the lease itself comes with or without a policy
      have hlease (s₄ : Store) : Safe i call (if FitsInteger req.leaseSeconds then
          .call (.claimJobs (fun rows => candidates rows datasetId req.queue env.now req.ordering
            (clampBatch req.batchSize)) { set := leasedRow env.now req.workerId req.leaseSeconds })
            (fun leased => .done (.ok (.jobs (leased.insertionSort (OrderLe req.ordering)))))
          else .done (.err "integer out of range")) s₄ := by
        split
        · refine safe_claimJobs (fun rows r hr => ⟨(live_of_status (Or.inl (candidates_queued hr))).1, ?_⟩)
            fun s₅ rows _ => safe_done hnc
          show "running" ≠ "canceled"
          decide
        · exact safe_err
      cases (s₂.view i).queuePolicies req.queue with
      | none => exact hlease s₃
      | some policy =>
          simp only [Tx.policyGate, Tx.select, Prog.call_bind, Prog.done_bind, Prog.pure_eq]
          refine safe_select fun s₄ _ => safe_select fun s₅ _ => ?_
          split
          · exact throttle_safe hnc env req _ _ _ _ _
          · exact hlease s₅

theorem markSucceeded_safe (env : Tx.SuccessEnv) (jobId attemptId : Uuid) (workerId : String) (latencyMs : Int) :
    Safe i call (Tx.markSucceeded env jobId attemptId workerId latencyMs) s := by
  simp only [Tx.markSucceeded, Tx.updateAttempts, Tx.updateJobs, Prog.call_bind, Prog.done_bind, Prog.pure_eq]
  refine safe_updateAttempts fun s₁ answer _ => ?_
  split
  · exact safe_err
  · split
    · exact safe_err
    · refine safe_updateJobs (fun s₂ _ id r _ hp => ⟨(live_of_status (Or.inr (heldRow_running hp))).1, ?_⟩) ?_
      · show "succeeded" ≠ "canceled"
        decide
      · intro s₃ completed
        split
        · exact safe_err
        · unfold Tx.recur
          split
          · exact safe_done hnc
          · split
            · exact safe_done hnc
            · split
              · exact safe_err
              · split
                · exact safe_insertJob fun s₄ => safe_done hnc
                · exact safe_err

theorem failWith_safe (now : DateTime) (jobId attemptId : Uuid) (workerId : String) (latencyMs : Int)
    (errorCode errorMessage target : String) {f : Table.Assign JobRow.rowId}
    (hset : ∀ r, (f.set r).status ≠ "canceled") :
    Safe i call (Tx.failWith now jobId attemptId workerId latencyMs errorCode errorMessage target f) s := by
  simp only [Tx.failWith, Tx.updateAttempts, Tx.updateJobs, Prog.call_bind, Prog.done_bind, Prog.pure_eq]
  refine safe_updateAttempts fun s₁ answer _ => ?_
  split
  · exact safe_err
  · split
    · exact safe_err
    · refine safe_updateJobs (fun s₂ _ id r _ hp => ⟨(live_of_status (Or.inr (heldRow_running hp))).1, hset r⟩) ?_
      intro s₃ moved
      split
      · exact safe_err
      · exact safe_done hnc

theorem reapExpiredLocks_safe (now : DateTime) : Safe i call (Tx.reapExpiredLocks now) s := by
  simp only [Tx.reapExpiredLocks, Tx.claimJobs, Tx.updateAttempts, Tx.updateJobs, Prog.call_bind, Prog.done_bind,
    Prog.pure_eq]
  refine safe_claimJobs (fun rows r hr => live_of_status (Or.inr (expired_running (List.mem_filter.mp hr).2))) ?_
  intro s₁ found _
  split
  · exact safe_done hnc
  · refine safe_updateAttempts fun s₂ answer _ => ?_
    split
    · exact safe_err
    · refine safe_updateJobs (fun s₃ _ id r _ hp => ⟨(live_of_status (Or.inr (expired_running hp))).1, ?_⟩)
        fun s₄ rows => safe_done hnc
      show "queued" ≠ "canceled"
      decide

end NotCancel

/-- Every call starts a safe transaction. -/
theorem call_safe (call : Call) (hclean : Clean i s) : Safe i call call.tx s := by
  cases call with
  | cancelJob now jobId workerId => exact cancelJob_safe hclean
  | leaseJobsBatch env req => exact leaseJobsBatch_safe (by intro _ _ _ h; cases h) env req
  | markSucceeded env jobId attemptId workerId latencyMs =>
      exact markSucceeded_safe (by intro _ _ _ h; cases h) env jobId attemptId workerId latencyMs
  | rescheduleForRetry now jobId attemptId workerId latencyMs nextRunAt errorCode errorMessage =>
      refine failWith_safe (by intro _ _ _ h; cases h) _ _ _ _ _ _ _ _ fun r => ?_
      show "queued" ≠ "canceled"
      decide
  | markDlq now jobId attemptId workerId latencyMs reasonCode errorCode errorMessage =>
      refine failWith_safe (by intro _ _ _ h; cases h) _ _ _ _ _ _ _ _ fun r => ?_
      show "dlq" ≠ "canceled"
      decide
  | reapExpiredLocks now => exact reapExpiredLocks_safe (by intro _ _ _ h; cases h) now

end Programs

/-! ## Runs -/

/-- What holds in every state: a pending row belongs to a client that is in a call, what it has pending is what the
    call may write, and the rest of the call is safe. -/
structure Inv (s : TxPool) : Prop where
  owned : ∀ id i r, (s.store.jobs.cell id).pending = some (i, r) → s.client i ≠ none
  guarded : ∀ i call p, s.client i = some (call, p) → Versions.Guarded i (Change call) s.store.jobs
  safe : ∀ i call p, s.client i = some (call, p) → Safe i call p s.store

section Runs

variable {s s' : TxPool} {i : ClientId}

/-- A client that is in no call has nothing pending. -/
theorem Inv.clean (h : Inv s) (hi : s.client i = none) : Clean i s.store :=
  fun id r hr => h.owned id i r hr hi

/-- One client moves, and the rest of its call stays safe: the others are safe because they are not disturbed. -/
theorem Inv.move {running : Option (Call × Tx (Outcome Answer))} {store : Store} (h : Inv s)
    (hothers : ∀ j, j ≠ i → Versions.Steady j s.store.jobs store.jobs)
    (hnone : running = none → Clean i store)
    (hself : ∀ call p, running = some (call, p) → Versions.Guarded i (Change call) store.jobs ∧ Safe i call p store) :
    Inv (s.put i running store) := by
  constructor
  · intro id j r hr
    by_cases hj : j = i
    · subst hj
      rw [Pool.put_self]
      intro he
      exact hnone he id r hr
    · rw [Pool.put_of_ne hj]
      exact h.owned id j r ((hothers j hj).pending.mp hr)
  · intro j call p hclient
    rcases Pool.client_put hclient with ⟨rfl, hrunning⟩ | ⟨hj, hold⟩
    · exact (hself call p hrunning).1
    · exact (h.guarded j call p hold).steady (hothers j hj)
  · intro j call p hclient
    rcases Pool.client_put hclient with ⟨rfl, hrunning⟩ | ⟨hj, hold⟩
    · exact (hself call p hrunning).2
    · exact (h.safe j call p hold).steady (hothers j hj)

theorem rollback_clean (s : Store) (i : ClientId) : Clean i (s.rollback i) := fun _ _ => Versions.rollback_pending

theorem commit_clean (s : Store) (i : ClientId) : Clean i (s.commit i) := fun _ _ => Versions.commit_pending

theorem close_spec (i : ClientId) (outcome : Outcome Answer) (s : Store) :
    Clean i (server.close i outcome s) ∧ ∀ j, j ≠ i → Versions.Steady j s.jobs (server.close i outcome s).jobs := by
  cases outcome with
  | ok a => exact ⟨commit_clean s i, fun j hj => Versions.commit_steady hj⟩
  | err message => exact ⟨rollback_clean s i, fun j hj => Versions.rollback_steady hj⟩
  | panic => exact ⟨rollback_clean s i, fun j hj => Versions.rollback_steady hj⟩

/-- **The step lemma.** A step at which `cancel_job` overwrites no row that would fail its check keeps the
    invariant. -/
theorem Inv.step {move : Move ClientId Call} (h : Inv s) (hstep : txSystem.step s move s')
    (hok : RecheckedStep s move s') : Inv s' := by
  cases move with
  | start i call =>
      obtain ⟨hi, rfl⟩ := Pool.next_start hstep
      have hclean := h.clean hi
      refine h.move (fun j _ => Versions.Steady.refl _ _) (fun he => by cases he) ?_
      rintro call' p he
      cases he
      exact ⟨fun id r₀ r _ hr => absurd hr (hclean id r), call_safe call hclean⟩
  | exec i =>
      obtain ⟨call, c, k, r, store, hi, hexec, rfl⟩ := Pool.next_exec hstep
      have hsafe := h.safe i call _ hi s.store (Versions.Steady.refl _ _) (h.guarded i call _ hi)
        (hok i call c k rfl hi) r store hexec
      refine h.move (fun j hj => exec_steady hexec hj) (fun he => by cases he) ?_
      rintro call' p he
      cases he
      exact hsafe
  | finish i =>
      obtain ⟨call, outcome, hi, rfl⟩ := Pool.next_finish hstep
      obtain ⟨hclean, hothers⟩ := close_spec i outcome s.store
      exact h.move hothers (fun _ => hclean) (fun call' p he => by cases he)
  | crash i =>
      obtain ⟨_, rfl⟩ := Pool.next_crash hstep
      exact h.move (fun j hj => Versions.rollback_steady hj) (fun _ => rollback_clean s.store i)
        (fun call' p he => by cases he)

/-- A statement commits nothing. -/
theorem exec_committed {c : Stmt} {store store' : Store} {r : c.Reply} (h : c.exec i store = some (r, store'))
    (id : Uuid) : (store'.jobs.cell id).committed = (store.jobs.cell id).committed := by
  have hwrote {Q : JobRow → JobRow → Prop} {jobs : Versions ClientId JobRow.rowId}
      (hw : Versions.Wrote i Q store.jobs jobs) : (jobs.cell id).committed = (store.jobs.cell id).committed := by
    rcases hw id with hsame | ⟨_, _, _, _, _, hcell⟩
    · rw [hsame]
    · rw [hcell]
  cases c with
  | select => cases h; rfl
  | updateJobs p f =>
      obtain ⟨answer, hupd, heq⟩ := Option.map_eq_some_iff.mp h
      cases heq
      exact hwrote (Versions.update_wrote hupd)
  | claimJobs choose f => cases h; exact hwrote Versions.claim_wrote
  | updateAttempts p fits f =>
      simp only [Stmt.exec] at h
      split at h
      · obtain ⟨answer, _, heq⟩ := Option.map_eq_some_iff.mp h
        cases heq
        rfl
      · cases h
        rfl
  | insertJob row =>
      obtain ⟨jobs, hins, heq⟩ := Option.map_eq_some_iff.mp h
      cases heq
      rcases Versions.insert_cases hins id with hsame | ⟨_, hold, hnew⟩
      · rw [hsame]
      · rw [hold, hnew]
  | insertDecision decision =>
      obtain ⟨decisions, _, heq⟩ := Option.map_eq_some_iff.mp h
      cases heq
      rfl

/-- A step that commits nothing keeps to the law, if it is not the end of a `cancel_job` that returns `Ok`. -/
theorem CancelLaw.of_same {move : Move ClientId Call}
    (hsame : ∀ id, (s'.store.jobs.cell id).committed = (s.store.jobs.cell id).committed)
    (hmove : ∀ i call a, move = .finish i → s.client i ≠ some (call, .done (.ok a))) : CancelLaw s move s' := by
  constructor
  · intro id r hr _
    rw [hsame]
    exact hr
  · intro id r r' hr hne hr' hc
    rw [hsame, hr] at hr'
    cases hr'
    exact absurd hc hne
  · intro i now id workerId a he hclient
    exact absurd hclient (hmove i _ a he)

/-- **The law of one step.** Only a commit changes committed rows, and what a transaction has pending is what it may
    write. -/
theorem Inv.law {move : Move ClientId Call} (h : Inv s) (hstep : txSystem.step s move s') :
    CancelLaw s move s' := by
  cases move with
  | start i call =>
      obtain ⟨_, rfl⟩ := Pool.next_start hstep
      exact .of_same (fun _ => rfl) (fun _ _ _ he => by cases he)
  | exec i =>
      obtain ⟨call, c, k, r, store, _, hexec, rfl⟩ := Pool.next_exec hstep
      exact .of_same (exec_committed hexec) (fun _ _ _ he => by cases he)
  | crash i =>
      obtain ⟨_, rfl⟩ := Pool.next_crash hstep
      exact .of_same Versions.rollback_committed (fun _ _ _ he => by cases he)
  | finish i =>
      obtain ⟨call, outcome, hi, rfl⟩ := Pool.next_finish hstep
      -- a call that ends without `Ok` rolls back
      have hno (he : ∀ a, outcome ≠ .ok a) (j : ClientId) (call' : Call) (a : Answer)
          (hmove : Move.finish (κ := Call) i = .finish j) : s.client j ≠ some (call', .done (.ok a)) := by
        cases hmove
        rw [hi]
        intro heq
        cases heq
        exact he a rfl
      cases outcome with
      | err message => exact .of_same Versions.rollback_committed (hno fun a ha => by cases ha)
      | panic => exact .of_same Versions.rollback_committed (hno fun a ha => by cases ha)
      | ok a =>
          have hsettled : Settled i call (.ok a) s.store := h.safe i call _ hi
          have hguard := h.guarded i call _ hi
          constructor
          · -- a terminal row: what the transaction has pending over it is the same row
            intro id r hr hterm
            show ((s.store.jobs.cell id).commit i).committed = some r
            rcases (s.store.jobs.cell id).commit_cases i with ⟨r', hp, hc⟩ | ⟨_, hc⟩
            · rw [hc, (hguard id r r' hr hp).terminal hterm]
            · rw [hc]
              exact hr
          · -- a row that becomes `canceled`: only a `cancel_job` has that pending
            intro id r r' hr hne hr' hcanceled
            rcases Versions.commit_committed hr' with hold | hp
            · rw [hr] at hold
              cases hold
              exact absurd hcanceled hne
            · have hid : r.id = id := s.store.jobs.keyed id r hr
              rcases (hguard id r r' hr hp).canceled hcanceled with hsame | ⟨now, workerId, hcall, hcan⟩
              · exact absurd hsame hne
              · rw [hcall, hid] at hi
                exact ⟨i, now, workerId, a, rfl, hi, hcan⟩
          · -- a `cancel_job` that returns `Ok`: its row is pending, and is committed now
            intro j now id workerId a' he hclient
            cases he
            rw [hi] at hclient
            cases hclient
            obtain ⟨r₀, r, hcom, hcan, hpend, hrow⟩ := hsettled now id workerId a rfl rfl
            exact ⟨r₀, r, hcom, hcan, Versions.commit_of_pending hpend, hrow⟩

theorem reachable_inv (hs : (txSystem.restrict RecheckedStep).Reachable s) : Inv s := by
  refine System.Reachable.invariant ?_ (fun s move s' _ h hstep => h.step hstep.1 hstep.2) hs
  rintro s ⟨⟨db, hdb⟩, hidle⟩
  constructor
  · intro id i r hr
    rw [hdb] at hr
    cases hr
  · intro i call p hclient
    rw [hidle i] at hclient
    cases hclient
  · intro i call p hclient
    rw [hidle i] at hclient
    cases hclient

end Runs

/-- **When a cancellation is safe.** In every run in which each row that a `cancel_job` overwrites still passes the
    check it made on the row it had read, every step keeps to the law, and a job that is `succeeded`, `dlq` or
    `canceled` stays exactly as it is to the end of the run. -/
theorem cancel_law_rechecked {s : TxPool} (hs : (txSystem.restrict RecheckedStep).Reachable s) :
    (∀ move s', (txSystem.restrict RecheckedStep).step s move s' → CancelLaw s move s') ∧
    ∀ moves s', (txSystem.restrict RecheckedStep).Run s moves s' → ∀ id r,
      (s.store.jobs.cell id).committed = some r → Terminal r.status →
        (s'.store.jobs.cell id).committed = some r := by
  refine ⟨fun move s' hstep => (reachable_inv hs).law hstep.1, ?_⟩
  intro moves s' hrun id r hr hterm
  refine System.Run.keeps (I := fun s => (s.store.jobs.cell id).committed = some r) ?_ hrun hs hr
  intro s move s' hreach hcom hstep
  exact ((reachable_inv hreach).law hstep.1).terminal id r hcom hterm

/-! ### A worker completes the job in between -/

/-- A job under the lease of `w1`, and its running attempt. -/
def leasedEmail : JobRow :=
  { datasetId := "emails_19700101_00", replayOfJobId := none, idempotencyKey := none, id := 1, queue := "emails",
    jobType := "welcome", payload := "{}", runAt := 0, deadlineAt := none, timeoutSeconds := none,
    recurringIntervalSeconds := none, status := "running", priority := 0, maxAttempts := 3, lockedAt := some 0,
    lockedBy := some "w1", lockExpiresAt := some 100, dlqReasonCode := none, dlqAt := none, createdAt := 0,
    updatedAt := 0, lastErrorCode := none, lastErrorMessage := none }

def leasedAttempt : AttemptRow :=
  { id := 11, datasetId := "emails_19700101_00", jobId := 1, attemptNo := 1, status := "running", workerId := "w1",
    startedAt := 0, finishedAt := none, latencyMs := none, errorCode := none, errorMessage := none }

/-- No client runs yet. -/
def leasedPool : TxPool :=
  { store := .ofDb { jobs := ⟨[leasedEmail], by decide⟩, attempts := ⟨[leasedAttempt], by decide⟩,
                     queuePolicies := fun _ => none, policyDecisions := [] }
    client := fun _ => none }

/-- `w1` asks to cancel its job, and reads that it holds the lease; another call of `w1` completes the job; then the
    cancellation goes on to its end. -/
def cancelAfterSuccess : List (Move ClientId Call) :=
  [.start 0 (.cancelJob 50 1 (some "w1")), .exec 0,
    .start 1 (.markSucceeded ⟨50, 2, .ok ()⟩ 1 11 "w1" 5), .exec 1, .exec 1, .finish 1,
    .exec 0, .exec 0, .exec 0]

/-- The pool in which the cancellation is about to commit, and the pool in which it has. -/
def overtaken : TxPool := (leasedPool.run server Call.tx cancelAfterSuccess).getD leasedPool
def overwritten : TxPool := (overtaken.next server Call.tx (.finish 0)).getD overtaken

/-- A succeeded job becomes `canceled`, by a `cancel_job` that returns `Ok`. -/
theorem cancel_overwrites :
    txSystem.Reachable overtaken ∧ txSystem.step overtaken (.finish 0) overwritten ∧
    (overtaken.store.jobs.cell 1).committed.map (·.status) = some "succeeded" ∧
    (overwritten.store.jobs.cell 1).committed.map (·.status) = some "canceled" ∧
    ¬CancelLaw overtaken (.finish 0) overwritten := by
  have hrun : leasedPool.run server Call.tx cancelAfterSuccess = some overtaken := rfl
  have hbefore : (overtaken.store.jobs.cell 1).committed.map (·.status) = some "succeeded" := by decide
  have hafter : (overwritten.store.jobs.cell 1).committed.map (·.status) = some "canceled" := by decide
  refine ⟨Pool.reachable_run _ (.start ⟨⟨_, rfl⟩, fun _ => rfl⟩) hrun, rfl, hbefore, hafter, ?_⟩
  intro hlaw
  obtain ⟨r, hr, hst⟩ := Option.map_eq_some_iff.mp hbefore
  rw [hlaw.terminal 1 r hr (by rw [hst]; decide), Option.map_some, hst] at hafter
  exact absurd hafter (by decide)

/-! ### A cancellation that nobody overtakes -/

/-- The cancellation after `n` of its moves. -/
def aloneAfter (n : Nat) : TxPool :=
  (leasedPool.run server Call.tx
    ([.start 0 (.cancelJob 50 1 (some "w1")), .exec 0, .exec 0, .exec 0, .exec 0].take n)).getD leasedPool

theorem aloneAfter_reachable : (txSystem.restrict RecheckedStep).Reachable (aloneAfter 5) := by
  have hstart : (txSystem.restrict RecheckedStep).Reachable (aloneAfter 0) := .start ⟨⟨_, rfl⟩, fun _ => rfl⟩
  have hcall : (txSystem.restrict RecheckedStep).Reachable (aloneAfter 1) :=
    hstart.next (i := .start 0 (.cancelJob 50 1 (some "w1"))) ⟨rfl, fun _ _ _ _ he => by cases he⟩
  have hread : (txSystem.restrict RecheckedStep).Reachable (aloneAfter 2) := by
    refine hcall.next (i := .exec 0) ⟨rfl, ?_⟩
    intro i call c k he hc
    cases he
    cases hc
    trivial
  have hlatest : (txSystem.restrict RecheckedStep).Reachable (aloneAfter 3) := by
    refine hread.next (i := .exec 0) ⟨rfl, ?_⟩
    intro i call c k he hc
    cases he
    cases hc
    trivial
  have hattempt : (txSystem.restrict RecheckedStep).Reachable (aloneAfter 4) := by
    refine hlatest.next (i := .exec 0) ⟨rfl, ?_⟩
    intro i call c k he hc
    cases he
    cases hc
    trivial
  refine hattempt.next (i := .exec 0) ⟨rfl, ?_⟩
  intro i call c k he hc
  cases he
  cases hc
  exact ⟨leasedEmail, rfl, rfl⟩

/-- It returns `Ok`, and the job it held is `canceled`. -/
theorem cancel_law_alone :
    CancelLaw (aloneAfter 5) (.finish 0) (((aloneAfter 5).next server Call.tx (.finish 0)).getD (aloneAfter 5)) ∧
    ((((aloneAfter 5).next server Call.tx (.finish 0)).getD (aloneAfter 5)).store.jobs.cell 1).committed.map
      (·.status) = some "canceled" :=
  ⟨(cancel_law_rechecked aloneAfter_reachable).1 _ _ ⟨rfl, fun _ _ _ _ he => by cases he⟩, by decide⟩

end Azums.Postgres
