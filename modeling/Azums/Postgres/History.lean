import Azums.Lib.Evolve
import Azums.Postgres.Reap

/-!
# `Postgres.History` — what concurrent transactions leave on record

Any number of clients run the transactions of `PostgresBackend` at the same time. `history_law` says what an audit can rely
on at the end of any run, whatever interleaves, rolls back or dies: no committed job is gone and none has changed what its
producer asked for (`JobRow.request`); no committed attempt is gone or has another job, number, worker or start
(`AttemptRow.start`); and no decision is gone.

An attempt that was closed is exactly as it was only if no `cancel_job` comes too late: its `UPDATE` names the attempt that
its sub-select has found running, and does not ask again when it has waited for the row. `late_cancel_rewrites` is a run
in which it writes over an attempt that has succeeded.

A statement is checked on its own (`Statement.KeepsHistory`), and a transaction is one that sends no other
(`HistoryTx`). The store then evolves as the guards of `Lib.Evolve` allow.
-/

namespace Azums.Postgres

/-! ## What stays -/

/-- A job as its producer asked for it: the other columns are blank. -/
def JobRow.request (r : JobRow) : JobRow :=
  { r with
    runAt := 0
    status := ""
    lockedAt := none
    lockedBy := none
    lockExpiresAt := none
    dlqReasonCode := none
    dlqAt := none
    updatedAt := 0
    lastErrorCode := none
    lastErrorMessage := none }

/-- An attempt as it started: the other columns are blank. -/
def AttemptRow.start (a : AttemptRow) : AttemptRow :=
  { a with status := "", finishedAt := none, latencyMs := none, errorCode := none, errorMessage := none }

/-- What may become of a job. -/
def JobKept (r r' : JobRow) : Prop := r'.request = r.request

/-- What may become of an attempt. -/
def AttemptKept (a a' : AttemptRow) : Prop := a'.start = a.start

/-- What is on record stays on record. -/
structure HistoryKept (s s' : Store) : Prop where
  jobs : ∀ id r, (s.jobs.cell id).committed = some r →
    ∃ r', (s'.jobs.cell id).committed = some r' ∧ r'.request = r.request
  attempts : ∀ id a, (s.attempts.cell id).committed = some a →
    ∃ a', (s'.attempts.cell id).committed = some a' ∧ a'.start = a.start
  decisions : ∀ id d, (s.policyDecisions.cell id).committed = some d →
    (s'.policyDecisions.cell id).committed = some d

/-- An attempt that is closed stays as it is. -/
def ClosedKept (s s' : Store) : Prop :=
  ∀ id a, (s.attempts.cell id).committed = some a → a.status ≠ "running" → (s'.attempts.cell id).committed = some a

/-! ## Statements and transactions -/

/-- A statement of which no row loses what stays. -/
def Stmt.KeepsHistory : Stmt → Prop
  | .updateJobs _ f | .claimJobs _ f => ∀ r, JobKept r (f.set r)
  | .updateAttempts _ _ f => ∀ a, AttemptKept a (f.set a)
  | .select | .insertJob _ | .insertDecision _ => True

def Statement.KeepsHistory : Statement → Prop
  | .job c => c.KeepsHistory
  | .startAttempt _ => True

/-- A transaction that sends such statements only. -/
structure HistoryTx where
  program : Statements (Outcome Answer)
  keeps : program.Avoids (fun c => ¬c.KeepsHistory)

namespace Tx

/-- Every statement of the transaction keeps the history. -/
def KeepsHistory {α : Type} (p : Tx α) : Prop := p.Avoids (fun c => ¬c.KeepsHistory)

theorem KeepsHistory.statements {α : Type} : ∀ {p : Tx α}, p.KeepsHistory →
    p.statements.Avoids (fun c => ¬c.KeepsHistory)
  | .done _, _ => trivial
  | .call _ _, h => ⟨h.1, fun r => KeepsHistory.statements (h.2 r)⟩

section Rules

variable {α : Type}

theorem kept_done (a : α) : KeepsHistory (.done a : Tx α) := trivial

theorem kept_call {c : Stmt} {k : c.Reply → Tx α} (hc : c.KeepsHistory) (h : ∀ r, KeepsHistory (k r)) :
    KeepsHistory (.call c k) := ⟨fun hn => hn hc, h⟩

theorem kept_select {k : View → Tx α} (h : ∀ db, KeepsHistory (k db)) : KeepsHistory (.call .select k) :=
  kept_call trivial h

theorem kept_updateJobs {p : JobRow → Bool} {f : Table.Assign JobRow.rowId} {k : List JobRow → Tx α}
    (hf : ∀ r, JobKept r (f.set r)) (h : ∀ rows, KeepsHistory (k rows)) : KeepsHistory (.call (.updateJobs p f) k) :=
  kept_call hf h

theorem kept_claimJobs {choose : List JobRow → List JobRow} {f : Table.Assign JobRow.rowId}
    {k : List JobRow → Tx α} (hf : ∀ r, JobKept r (f.set r)) (h : ∀ rows, KeepsHistory (k rows)) :
    KeepsHistory (.call (.claimJobs choose f) k) := kept_call hf h

theorem kept_updateAttempts {p fits : AttemptRow → Bool} {f : Table.Assign AttemptRow.id}
    {k : Except String Nat → Tx α} (hf : ∀ a, AttemptKept a (f.set a)) (h : ∀ r, KeepsHistory (k r)) :
    KeepsHistory (.call (.updateAttempts p fits f) k) := kept_call hf h

end Rules

/-! ### The transactions of the backend -/

theorem cancelJob_kept (now : DateTime) (jobId : Uuid) (workerId : Option String) :
    KeepsHistory (cancelJob now jobId workerId) := by
  have hrow : KeepsHistory (cancelRow now jobId) := kept_updateJobs (fun _ => rfl) fun _ => kept_done _
  simp only [cancelJob, select, Prog.call_bind, Prog.done_bind, Prog.pure_eq]
  refine kept_select fun db => ?_
  split
  · exact kept_done _
  · split
    · exact kept_done _
    · split
      · simp only [updateAttempts, Prog.call_bind, Prog.done_bind]
        refine kept_select fun db' => kept_updateAttempts (fun _ => rfl) fun r => ?_
        split
        · exact kept_done _
        · exact hrow
      · exact hrow

theorem throttle_kept (env : LeaseEnv) (req : LeaseRequest) (datasetId : String) (policy : QueuePolicy)
    (running attempts : Nat) (reasonCode : String) :
    KeepsHistory (throttle env req datasetId policy running attempts reasonCode) := by
  simp only [throttle, claimJobs, insertDecision, updateJobs, Prog.call_bind, Prog.done_bind, Prog.pure_eq]
  refine kept_claimJobs (fun _ => rfl) fun locked => ?_
  split
  · exact kept_done _
  · exact kept_call trivial fun _ => kept_updateJobs (fun _ => rfl) fun _ => kept_done _

theorem leaseJobsBatch_kept (env : LeaseEnv) (req : LeaseRequest) :
    KeepsHistory (leaseJobsBatchWithOrdering env req) := by
  simp only [leaseJobsBatchWithOrdering, updateJobs, select, claimJobs, Prog.call_bind, Prog.done_bind, Prog.pure_eq]
  refine kept_updateJobs (fun _ => rfl) fun _ => kept_select fun db => kept_select fun db' => ?_
  split
  · exact kept_done _
  · rename_i datasetId _
    have hlease : KeepsHistory (if FitsInteger req.leaseSeconds then
        .call (.claimJobs (fun rows => candidates rows datasetId req.queue env.now req.ordering
          (clampBatch req.batchSize)) { set := leasedRow env.now req.workerId req.leaseSeconds })
          (fun leased => .done (.ok (.jobs (leased.insertionSort (OrderLe req.ordering)))))
        else .done (.err "integer out of range") : Tx (Outcome Answer)) := by
      split
      · exact kept_claimJobs (fun _ => rfl) fun _ => kept_done _
      · exact kept_done _
    cases db.queuePolicies req.queue with
    | none => exact hlease
    | some policy =>
        simp only [policyGate, select, Prog.call_bind, Prog.done_bind, Prog.pure_eq]
        refine kept_select fun _ => kept_select fun _ => ?_
        split
        · exact throttle_kept env req _ _ _ _ _
        · exact hlease

theorem markSucceeded_kept (env : SuccessEnv) (jobId attemptId : Uuid) (workerId : String) (latencyMs : Int) :
    KeepsHistory (markSucceeded env jobId attemptId workerId latencyMs) := by
  simp only [markSucceeded, updateAttempts, updateJobs, Prog.call_bind, Prog.done_bind, Prog.pure_eq]
  refine kept_updateAttempts (fun _ => rfl) fun r => ?_
  split
  · exact kept_done _
  · split
    · exact kept_done _
    · refine kept_updateJobs (fun _ => rfl) fun completed => ?_
      split
      · exact kept_done _
      · unfold recur
        split
        · exact kept_done _
        · split
          · exact kept_done _
          · split
            · exact kept_done _
            · split
              · exact kept_call trivial fun _ => kept_done _
              · exact kept_done _

/-- By induction on the completions. -/
theorem ackEach_kept (now : DateTime) (datasetId workerId : String) (updates : List Completion) :
    KeepsHistory (ackEach now datasetId workerId updates) := by
  induction updates with
  | nil => exact kept_done _
  | cons completion rest ih =>
      simp only [ackEach, updateAttempts, updateJobs, Prog.call_bind, Prog.done_bind, Prog.pure_eq]
      refine kept_updateAttempts (fun _ => rfl) fun r => ?_
      split
      · exact kept_done _
      · split
        · exact kept_done _
        · refine kept_updateJobs (fun _ => rfl) fun moved => ?_
          split
          · exact kept_done _
          · exact ih

theorem failWith_kept (now : DateTime) (jobId attemptId : Uuid) (workerId : String) (latencyMs : Int)
    (errorCode errorMessage target : String) {f : Table.Assign JobRow.rowId} (hf : ∀ r, JobKept r (f.set r)) :
    KeepsHistory (failWith now jobId attemptId workerId latencyMs errorCode errorMessage target f) := by
  simp only [failWith, updateAttempts, updateJobs, Prog.call_bind, Prog.done_bind, Prog.pure_eq]
  refine kept_updateAttempts (fun _ => rfl) fun r => ?_
  split
  · exact kept_done _
  · split
    · exact kept_done _
    · refine kept_updateJobs hf fun moved => ?_
      split
      · exact kept_done _
      · exact kept_done _

theorem reapExpiredLocks_kept (now : DateTime) : KeepsHistory (reapExpiredLocks now) := by
  simp only [reapExpiredLocks, claimJobs, updateAttempts, updateJobs, Prog.call_bind, Prog.done_bind, Prog.pure_eq]
  refine kept_claimJobs (fun _ => rfl) fun found => ?_
  split
  · exact kept_done _
  · refine kept_updateAttempts (fun _ => rfl) fun r => ?_
    split
    · exact kept_done _
    · exact kept_updateJobs (fun _ => rfl) fun _ => kept_done _

/-- What `extend_lease` writes. -/
def extendedRow (now : DateTime) (leaseSeconds : Int) (r : JobRow) : JobRow :=
  { r with lockExpiresAt := some (now + leaseSeconds * Chrono.nanosPerSecond), updatedAt := now }

/-- `JobsRepo::extend_lease`: one statement. -/
def extendLease (now : DateTime) (jobId : Uuid) (workerId : String) (leaseSeconds : Int) : Tx (Outcome Answer) :=
  if FitsInteger leaseSeconds then do
    let held ← updateJobs (heldRow jobId workerId) { set := extendedRow now leaseSeconds }
    return .ok (.count held.length)
  else return .err "integer out of range"

theorem extendLease_kept (now : DateTime) (jobId : Uuid) (workerId : String) (leaseSeconds : Int) :
    KeepsHistory (extendLease now jobId workerId leaseSeconds) := by
  unfold extendLease
  split
  · exact kept_updateJobs (fun _ => rfl) fun _ => kept_done _
  · exact kept_done _

end Tx

namespace HistoryTx

/-- A job transaction. -/
def ofTx (p : Tx (Outcome Answer)) (h : p.KeepsHistory) : HistoryTx := { program := p.statements, keeps := h.statements }

/-- A call of the backend. -/
def ofCall (call : Call) : HistoryTx :=
  ofTx call.tx <| by
    cases call with
    | cancelJob now jobId workerId => exact Tx.cancelJob_kept now jobId workerId
    | leaseJobsBatch env req => exact Tx.leaseJobsBatch_kept env req
    | markSucceeded env jobId attemptId workerId latencyMs =>
        exact Tx.markSucceeded_kept env jobId attemptId workerId latencyMs
    | rescheduleForRetry now jobId attemptId workerId latencyMs nextRunAt errorCode errorMessage =>
        exact Tx.failWith_kept _ _ _ _ _ _ _ _ fun _ => rfl
    | markDlq now jobId attemptId workerId latencyMs reasonCode errorCode errorMessage =>
        exact Tx.failWith_kept _ _ _ _ _ _ _ _ fun _ => rfl
    | reapExpiredLocks now => exact Tx.reapExpiredLocks_kept now

/-- `mark_succeeded_batch`. -/
def markSucceededBatch (now : DateTime) (datasetId : String) (updates : List Completion) (workerId : String) :
    HistoryTx :=
  ofTx (Tx.markSucceededBatch now datasetId updates workerId) <| by
    unfold Tx.markSucceededBatch
    split
    · exact Tx.kept_done _
    · exact Tx.ackEach_kept now datasetId workerId updates

/-- `extend_lease`. -/
def extendLease (now : DateTime) (jobId : Uuid) (workerId : String) (leaseSeconds : Int) : HistoryTx :=
  ofTx (Tx.extendLease now jobId workerId leaseSeconds) (Tx.extendLease_kept now jobId workerId leaseSeconds)

end HistoryTx

/-! ## Runs -/

/-- Clients that run such transactions. -/
abbrev HistoryPool := Pool ClientId HistoryTx Statement Statement.Reply (Outcome Answer) Store

/-- Any number of them, over a database that starts with no transaction open. -/
def historySystem : System HistoryPool (Move ClientId HistoryTx) :=
  Pool.system statementServer HistoryTx.program (fun s => ∃ db : Db, s = Store.ofDb db)

/-- What is pending over committed rows keeps the history, and no decision is ever rewritten. -/
structure HistoryInv (s : Store) : Prop where
  jobs : s.jobs.GuardedAll JobKept
  attempts : s.attempts.GuardedAll AttemptKept
  decisions : s.policyDecisions.GuardedAll (fun _ _ => False)

/-- How the tables evolve. -/
structure Evolution (s s' : Store) : Prop where
  jobs : s.jobs.Evolved JobKept s'.jobs
  attempts : s.attempts.Evolved AttemptKept s'.attempts
  decisions : s.policyDecisions.Evolved (fun _ _ => False) s'.policyDecisions

section Evolution

variable {s s' s'' : Store} {i : ClientId}

theorem Evolution.refl (s : Store) : Evolution s s := ⟨.refl _ _, .refl _ _, .refl _ _⟩

theorem JobKept.trans {a b c : JobRow} (h : JobKept a b) (h' : JobKept b c) : JobKept a c := Eq.trans h' h

theorem AttemptKept.trans {a b c : AttemptRow} (h : AttemptKept a b) (h' : AttemptKept b c) : AttemptKept a c :=
  Eq.trans h' h

theorem Evolution.trans (h : Evolution s s') (h' : Evolution s' s'') : Evolution s s'' where
  jobs := h.jobs.trans JobKept.trans h'.jobs
  attempts := h.attempts.trans AttemptKept.trans h'.attempts
  decisions := h.decisions.trans (fun ha _ => ha) h'.decisions

/-- Tables that have evolved keep the history. -/
theorem Evolution.kept (h : Evolution s s') : HistoryKept s s' where
  jobs id r hr := by
    obtain ⟨r', hr', rfl | hkept⟩ := h.jobs id r hr
    · exact ⟨r', hr', rfl⟩
    · exact ⟨r', hr', hkept⟩
  attempts id a ha := by
    obtain ⟨a', ha', rfl | hkept⟩ := h.attempts id a ha
    · exact ⟨a', ha', rfl⟩
    · exact ⟨a', ha', hkept⟩
  decisions id d hd := by
    obtain ⟨d', hd', rfl | hkept⟩ := h.decisions id d hd
    · exact hd'
    · exact hkept.elim

/-- A statement that writes jobs. -/
theorem HistoryInv.wroteJobs {jobs : Versions ClientId JobRow.rowId} {f : Table.Assign JobRow.rowId}
    {Q : JobRow → JobRow → Prop} (h : HistoryInv s) (hw : Versions.Wrote i Q s.jobs jobs)
    (hQ : ∀ {r r'}, Q r r' → r' = f.set r) (hf : ∀ r, JobKept r (f.set r)) :
    HistoryInv { s with jobs := jobs } ∧ Evolution s { s with jobs := jobs } := by
  obtain ⟨hguard, hevolved⟩ := h.jobs.wrote hw fun {r₀ r r'} hr hq => by
    rw [hQ hq]
    rcases hr with rfl | hr
    · exact hf r
    · exact hr.trans (hf r)
  exact ⟨{ h with jobs := hguard }, hevolved, .refl _ _, .refl _ _⟩

/-- **The step lemma.** -/
theorem HistoryInv.exec {c : Statement} {r : c.Reply} (h : HistoryInv s) (hc : c.KeepsHistory)
    (hexec : c.exec i s = some (r, s')) : HistoryInv s' ∧ Evolution s s' := by
  cases c with
  | startAttempt row =>
      obtain ⟨attempts, hins, heq⟩ := Option.map_eq_some_iff.mp hexec
      cases heq
      obtain ⟨hguard, hevolved⟩ := h.attempts.insert hins
      exact ⟨{ h with attempts := hguard }, .refl _ _, hevolved, .refl _ _⟩
  | job c =>
      cases c with
      | select =>
          cases hexec
          exact ⟨h, .refl s⟩
      | updateJobs p f =>
          obtain ⟨answer, hupd, heq⟩ := Option.map_eq_some_iff.mp hexec
          cases heq
          exact h.wroteJobs (Versions.update_wrote hupd) (fun hq => hq.2) hc
      | claimJobs choose f =>
          cases hexec
          exact h.wroteJobs Versions.claim_wrote (fun hq => hq.2) hc
      | updateAttempts p fits f =>
          simp only [Statement.exec, Stmt.exec] at hexec
          split at hexec
          · obtain ⟨answer, hupd, heq⟩ := Option.map_eq_some_iff.mp hexec
            cases heq
            obtain ⟨hguard, hevolved⟩ := h.attempts.wrote (Versions.update_wrote hupd) fun {a₀ a a'} ha hq => by
              rw [hq.2]
              rcases ha with rfl | ha
              · exact hc a
              · exact ha.trans (hc a)
            exact ⟨{ h with attempts := hguard }, .refl _ _, hevolved, .refl _ _⟩
          · cases hexec
            exact ⟨h, .refl s⟩
      | insertJob row =>
          obtain ⟨jobs, hins, heq⟩ := Option.map_eq_some_iff.mp hexec
          cases heq
          obtain ⟨hguard, hevolved⟩ := h.jobs.insert hins
          exact ⟨{ h with jobs := hguard }, hevolved, .refl _ _, .refl _ _⟩
      | insertDecision decision =>
          obtain ⟨decisions, hins, heq⟩ := Option.map_eq_some_iff.mp hexec
          cases heq
          obtain ⟨hguard, hevolved⟩ := h.decisions.insert hins
          exact ⟨{ h with decisions := hguard }, .refl _ _, .refl _ _, hevolved⟩

theorem HistoryInv.commit (h : HistoryInv s) (i : ClientId) : HistoryInv (s.commit i) ∧ Evolution s (s.commit i) :=
  ⟨⟨(h.jobs.commit i).1, (h.attempts.commit i).1, (h.decisions.commit i).1⟩,
    ⟨(h.jobs.commit i).2, (h.attempts.commit i).2, (h.decisions.commit i).2⟩⟩

theorem HistoryInv.rollback (h : HistoryInv s) (i : ClientId) :
    HistoryInv (s.rollback i) ∧ Evolution s (s.rollback i) :=
  ⟨⟨(h.jobs.rollback i).1, (h.attempts.rollback i).1, (h.decisions.rollback i).1⟩,
    ⟨(h.jobs.rollback i).2, (h.attempts.rollback i).2, (h.decisions.rollback i).2⟩⟩

end Evolution

section Runs

variable {s s' : HistoryPool}

/-- A step of a client keeps the invariant, and the tables evolve. -/
theorem historySystem_step {move : Move ClientId HistoryTx} (hs : historySystem.Reachable s) (h : HistoryInv s.store)
    (hstep : historySystem.step s move s') : HistoryInv s'.store ∧ Evolution s.store s'.store := by
  cases move with
  | start i tx =>
      obtain ⟨_, rfl⟩ := Pool.next_start hstep
      exact ⟨h, .refl _⟩
  | exec i =>
      obtain ⟨tx, c, k, r, store, hi, hexec, rfl⟩ := Pool.next_exec hstep
      have hc := (Pool.avoids HistoryTx.keeps hs hi).1
      exact h.exec (not_not.mp hc) hexec
  | finish i =>
      obtain ⟨tx, outcome, _, rfl⟩ := Pool.next_finish hstep
      cases outcome with
      | ok answer => exact h.commit i
      | err message => exact h.rollback i
      | panic => exact h.rollback i
  | crash i =>
      obtain ⟨_, rfl⟩ := Pool.next_crash hstep
      exact h.rollback i

theorem reachable_history (hs : historySystem.Reachable s) : HistoryInv s.store := by
  refine hs.invariant (I := fun s => HistoryInv s.store) ?_ ?_
  · rintro s ⟨⟨db, hdb⟩, _⟩
    rw [hdb]
    exact ⟨Versions.ofRows_guardedAll _, Versions.ofRows_guardedAll _, Versions.ofRows_guardedAll _⟩
  · intro s move s' hs h hstep
    exact (historySystem_step hs h hstep).1

/-- What is on record stays, over every run. -/
theorem history_kept {moves : List (Move ClientId HistoryTx)} (hs : historySystem.Reachable s)
    (hrun : historySystem.Run s moves s') : HistoryKept s.store s'.store := by
  refine Evolution.kept ?_
  induction hrun with
  | nil => exact .refl _
  | cons hstep _ ih => exact (historySystem_step hs (reachable_history hs) hstep).2.trans (ih (hs.next hstep))

end Runs

/-! ## Closed attempts -/

/-- The row that was written over was running. -/
def WasRunning (a _ : AttemptRow) : Prop := a.status = "running"

/-- The steps that close no attempt twice: each attempt that a statement updates is running. All but the `UPDATE` of
    `cancel_job` ask for that themselves. -/
def ClosesRunning (s : HistoryPool) (move : Move ClientId HistoryTx) (_ : HistoryPool) : Prop :=
  ∀ i tx p fits f k, move = .exec i → s.client i = some (tx, .call (.job (.updateAttempts p fits f)) k) →
    ∀ a ∈ s.store.attempts.rows i, p a = true → a.status = "running"

section Closed

variable {s s' : HistoryPool}

/-- A statement that updates running attempts only. -/
theorem closes_exec {i : ClientId} {store store' : Store} {c : Statement} {r : c.Reply}
    (h : store.attempts.GuardedAll WasRunning)
    (hc : ∀ p fits f, c = .job (.updateAttempts p fits f) →
      ∀ a ∈ store.attempts.rows i, p a = true → a.status = "running")
    (hexec : c.exec i store = some (r, store')) :
    store'.attempts.GuardedAll WasRunning ∧ store.attempts.Evolved WasRunning store'.attempts := by
  cases c with
  | startAttempt row =>
      obtain ⟨attempts, hins, heq⟩ := Option.map_eq_some_iff.mp hexec
      cases heq
      exact h.insert hins
  | job c =>
      cases c with
      | updateAttempts p fits f =>
          simp only [Statement.exec, Stmt.exec] at hexec
          split at hexec
          · obtain ⟨answer, hupd, heq⟩ := Option.map_eq_some_iff.mp hexec
            cases heq
            refine h.wrote (Versions.update_wrote_rows hupd) fun {a₀ a a'} ha hq => ?_
            rcases ha with rfl | ha
            · exact hc p fits f rfl a hq.1 hq.2.1
            · exact ha
          · cases hexec
            exact ⟨h, .refl _ _⟩
      | select | claimJobs choose f =>
          cases hexec
          exact ⟨h, .refl _ _⟩
      | updateJobs p f | insertJob row | insertDecision decision =>
          obtain ⟨_, _, heq⟩ := Option.map_eq_some_iff.mp hexec
          cases heq
          exact ⟨h, .refl _ _⟩

/-- Only running attempts are written over. -/
theorem closes_step {move : Move ClientId HistoryTx} (h : s.store.attempts.GuardedAll WasRunning)
    (hstep : historySystem.step s move s') (hcloses : ClosesRunning s move s') :
    s'.store.attempts.GuardedAll WasRunning ∧ s.store.attempts.Evolved WasRunning s'.store.attempts := by
  cases move with
  | start i tx =>
      obtain ⟨_, rfl⟩ := Pool.next_start hstep
      exact ⟨h, .refl _ _⟩
  | exec i =>
      obtain ⟨tx, c, k, r, store, hi, hexec, rfl⟩ := Pool.next_exec hstep
      refine closes_exec h ?_ hexec
      rintro p fits f rfl
      exact hcloses i tx p fits f k rfl hi
  | finish i =>
      obtain ⟨tx, outcome, _, rfl⟩ := Pool.next_finish hstep
      cases outcome with
      | ok answer => exact h.commit i
      | err message => exact h.rollback i
      | panic => exact h.rollback i
  | crash i =>
      obtain ⟨_, rfl⟩ := Pool.next_crash hstep
      exact h.rollback i

theorem reachable_closes (hs : (historySystem.restrict ClosesRunning).Reachable s) :
    s.store.attempts.GuardedAll WasRunning := by
  refine hs.invariant (I := fun s => s.store.attempts.GuardedAll WasRunning) ?_ ?_
  · rintro s ⟨⟨db, hdb⟩, _⟩
    rw [hdb]
    exact Versions.ofRows_guardedAll _
  · rintro s move s' _ h ⟨hstep, hcloses⟩
    exact (closes_step h hstep hcloses).1

/-- Closed attempts stay as they are, over every run that closes none twice. -/
theorem closed_kept {moves : List (Move ClientId HistoryTx)}
    (hs : (historySystem.restrict ClosesRunning).Reachable s)
    (hrun : (historySystem.restrict ClosesRunning).Run s moves s') : ClosedKept s.store s'.store := by
  have hevolved : s.store.attempts.Evolved WasRunning s'.store.attempts := by
    induction hrun with
    | nil => exact .refl _ _
    | cons hstep _ ih =>
        have hone := (closes_step (reachable_closes hs) hstep.1 hstep.2).2
        exact hone.trans (fun hab _ => hab) (ih (hs.next hstep))
  intro id a ha hclosed
  obtain ⟨a', ha', rfl | hrunning⟩ := hevolved id a ha
  · exact ha'
  · exact absurd hrunning hclosed

end Closed

/-- **History is append-only.** In every run of any such transactions, whatever interleaves, rolls back or dies: a
    committed job stays, and what its producer asked for; a committed attempt stays, and how it started; a committed
    decision stays as it is. And where every attempt that is updated is running, a closed one does not change any more. -/
theorem history_law (s s' : HistoryPool) (moves : List (Move ClientId HistoryTx)) :
    (historySystem.Reachable s → historySystem.Run s moves s' → HistoryKept s.store s'.store) ∧
    ((historySystem.restrict ClosesRunning).Reachable s →
      (historySystem.restrict ClosesRunning).Run s moves s' → ClosedKept s.store s'.store) :=
  ⟨history_kept, closed_kept⟩

/-! ### A cancellation that comes too late -/

/-- The job under the lease of `w1`, and no client. -/
def leasedHistory : HistoryPool := { store := leasedPool.store, client := fun _ => none }

/-- `w1` asks to cancel its job, and completes it before the cancellation goes on. -/
def overtaking : List (Move ClientId HistoryTx) :=
  [.start 0 (.ofCall (.cancelJob 50 1 (some "w1"))), .exec 0,
    .start 1 (.ofCall (.markSucceeded ⟨50, 2, .ok ()⟩ 1 11 "w1" 5)), .exec 1, .exec 1, .finish 1]

/-- The cancellation goes on to its end. -/
def goingOn : List (Move ClientId HistoryTx) := [.exec 0, .exec 0, .exec 0, .finish 0]

/-- The pool in which the job is completed, and the pool in which it is canceled. -/
def completedHistory : HistoryPool := (leasedHistory.run statementServer HistoryTx.program overtaking).getD leasedHistory
def canceledHistory : HistoryPool := (completedHistory.run statementServer HistoryTx.program goingOn).getD completedHistory

/-- Every attempt that the move updates is running. -/
def updatesRunning (s : HistoryPool) : Move ClientId HistoryTx → Bool
  | .exec i =>
      match s.client i with
      | some (_, .call (.job (.updateAttempts p _ _)) _) =>
          (s.store.attempts.rows i).all (fun a => !p a || a.status == "running")
      | _ => true
  | _ => true

theorem closesRunning_of_updates {s s' : HistoryPool} {move : Move ClientId HistoryTx}
    (h : updatesRunning s move = true) : ClosesRunning s move s' := by
  rintro i tx p fits f k rfl hi a ha hp
  simp only [updatesRunning, hi, List.all_eq_true] at h
  simpa [hp] using h a ha

theorem run_updatesRunning {s s' : HistoryPool} (moves : List (Move ClientId HistoryTx))
    (hmoves : System.takes (Pool.next statementServer HistoryTx.program) updatesRunning s moves = true)
    (h : s.run statementServer HistoryTx.program moves = some s') :
    (historySystem.restrict ClosesRunning).Run s moves s' := by
  refine System.Run.along (fun hmove hnext => ?_) moves hmoves h
  exact ⟨hnext, closesRunning_of_updates hmove⟩

theorem leasedHistory_reachable : historySystem.Reachable leasedHistory := .start ⟨⟨_, rfl⟩, fun _ => rfl⟩

/-- The sub-select of the cancellation finds no running attempt any more: the job is overwritten, its attempt is not. -/
theorem history_law_canceled : HistoryKept completedHistory.store canceledHistory.store ∧
    ClosedKept completedHistory.store canceledHistory.store ∧
    (canceledHistory.store.jobs.cell 1).committed.map (·.status) = some "canceled" ∧
    (canceledHistory.store.attempts.cell 11).committed.map (·.status) = some "succeeded" := by
  have hstart : (historySystem.restrict ClosesRunning).Reachable leasedHistory := .start ⟨⟨_, rfl⟩, fun _ => rfl⟩
  have hclosing := hstart.run (run_updatesRunning overtaking rfl rfl)
  obtain ⟨hkept, hclosed⟩ := history_law completedHistory canceledHistory goingOn
  exact ⟨hkept (Pool.reachable_run overtaking leasedHistory_reachable rfl) (Pool.run_system goingOn rfl),
    hclosed hclosing (run_updatesRunning goingOn rfl rfl), by decide, by decide⟩

/-- The other order: the sub-select of the cancellation has found the attempt when it is completed. -/
def overtakingLate : List (Move ClientId HistoryTx) :=
  [.start 0 (.ofCall (.cancelJob 50 1 (some "w1"))), .exec 0, .exec 0,
    .start 1 (.ofCall (.markSucceeded ⟨50, 2, .ok ()⟩ 1 11 "w1" 5)), .exec 1, .exec 1, .finish 1]

def completedLate : HistoryPool := (leasedHistory.run statementServer HistoryTx.program overtakingLate).getD leasedHistory
def canceledLate : HistoryPool :=
  (completedLate.run statementServer HistoryTx.program [.exec 0, .exec 0, .finish 0]).getD completedLate

/-- The attempt has succeeded, and is overwritten. -/
theorem late_cancel_rewrites : historySystem.Reachable completedLate ∧
    historySystem.Run completedLate [.exec 0, .exec 0, .finish 0] canceledLate ∧
    (completedLate.store.attempts.cell 11).committed.map (·.status) = some "succeeded" ∧
    (canceledLate.store.attempts.cell 11).committed.map (·.errorCode) = some (some "CANCELLED") ∧
    ¬ClosedKept completedLate.store canceledLate.store := by
  have hbefore : (completedLate.store.attempts.cell 11).committed.map (·.status) = some "succeeded" := by decide
  have hafter : (canceledLate.store.attempts.cell 11).committed.map (·.status) = some "failed" := by decide
  refine ⟨Pool.reachable_run overtakingLate leasedHistory_reachable rfl, Pool.run_system _ rfl, hbefore, by decide,
    fun hkept => ?_⟩
  obtain ⟨a, ha, hst⟩ := Option.map_eq_some_iff.mp hbefore
  rw [hkept 11 a ha (by rw [hst]; decide), Option.map_some, hst] at hafter
  exact absurd hafter (by decide)

end Azums.Postgres
