import Azums.Lib.Discipline
import Azums.Postgres.Cancel

/-!
# `Postgres.Reap` — which attempts the reaper closes

`reap_expired_locks` selects the jobs whose lease has run out, closes their running attempts, and gives jobs back to the
queue. The `SELECT` steps over the rows that somebody else has locked, and the last `UPDATE` does not ask for the jobs
that were selected: it asks again for every job whose lease has run out. A job that was locked at the `SELECT` and is
not any more at the `UPDATE` goes back to the queue with its attempt still running.

The run is that of any number of connections: each is in a `reap_expired_locks` or in some other transaction, of any
statements on the same tables (a heartbeat, an acknowledgement, the start of an attempt), which may commit, roll back
or die. `reap_closes_requeued` says that every job that a reaper moves from `running` to `queued` has its running
attempts closed by it, if the reaper requeues no job with a running attempt that it has not selected, and no attempt is
started on a job that it is about to requeue. `reap_leaves_running` is the run in which an acknowledgement is rolled
back.
-/

namespace Azums.Postgres

/-! ## The clients -/

/-- The statements of the job transactions, and the `INSERT` that starts an attempt. -/
inductive Statement where
  | job (c : Stmt)
  | startAttempt (row : AttemptRow)

@[reducible] def Statement.Reply : Statement → Type
  | .job c => c.Reply
  | .startAttempt _ => Unit

def Statement.exec (i : ClientId) : (c : Statement) → Store → Option (c.Reply × Store)
  | .job c, s => c.exec i s
  | .startAttempt row, s =>
      (s.attempts.insert i row).map (fun attempts => ((), { s with attempts := attempts }))

/-- A transaction of these statements. -/
abbrev Statements (α : Type) := Prog Statement Statement.Reply α

/-- A job transaction, as one of these. -/
def Tx.statements {α : Type} : Tx α → Statements α
  | .done a => .done a
  | .call c k => .call (.job c) (fun r => Tx.statements (k r))

/-- A client is in a reaper, or in any other transaction. -/
inductive ReapCall where
  | reapExpiredLocks (now : DateTime)
  | other (tx : Statements (Outcome Answer))

def ReapCall.program : ReapCall → Statements (Outcome Answer)
  | .reapExpiredLocks now => (Tx.reapExpiredLocks now).statements
  | .other tx => tx

/-- The database server. -/
def statementServer : Server ClientId Statement Statement.Reply (Outcome Answer) Store where
  exec i c s := c.exec i s
  close := server.close
  abandon := server.abandon

/-! ## History -/

/-- Which clients are in a reaper that has closed its attempts. -/
abbrev Closing := ClientId → Bool

/-- A reaper closes attempts. -/
def Closing.sent (i : ClientId) (call : ReapCall) (c : Statement) (_ : Store) (r : c.Reply) (h : Closing) : Closing :=
  match call, c, r with
  | .reapExpiredLocks _, .job (.updateAttempts _ _ _), .ok _ => Function.update h i true
  | _, _, _ => h

/-- How the history follows the transactions: a client that ends is in no reaper. -/
def closingRecorder :
    Recorder ClientId ReapCall Statement Statement.Reply (Outcome Answer) Store Closing where
  exec := Closing.sent
  finish i _ _ h := Function.update h i false
  crash i h := Function.update h i false

abbrev ReapPool := Observed ClientId ReapCall Statement Statement.Reply (Outcome Answer) Store Closing

abbrev ReapMove := Move ClientId ReapCall

/-- Any number of clients, over a database that starts with no transaction open. -/
def reapSystem : System ReapPool ReapMove :=
  closingRecorder.system statementServer ReapCall.program (fun s => ∃ db : Db, s = Store.ofDb db)
    (fun _ _ => false)

/-! ## The law -/

/-- A running attempt of a job. -/
def RunningOf (r : JobRow) (a : AttemptRow) : Prop :=
  a.jobId = r.id ∧ a.datasetId = r.datasetId ∧ a.status = "running"

/-- An attempt that the reaper has closed. -/
def LeaseExpired (a : AttemptRow) : Prop := a.status = "failed" ∧ a.errorCode = some "LEASE_EXPIRED"

/-- Every job that a reaper moves from `running` to `queued` has all its running attempts closed by it. -/
def ReapLaw (o : ReapPool) (move : ReapMove) (o' : ReapPool) : Prop :=
  ∀ i now answer, move = .finish i → o.pool.client i = some (.reapExpiredLocks now, .done (.ok answer)) →
    ∀ id r r', (o.pool.store.jobs.cell id).committed = some r → r.status = "running" →
      (o'.pool.store.jobs.cell id).committed = some r' → r'.status = "queued" →
      ∀ k a, (o.pool.store.attempts.cell k).committed = some a → RunningOf r' a →
        ∃ a', (o'.pool.store.attempts.cell k).committed = some a' ∧ LeaseExpired a'

/-- A reaper requeues only jobs that it has selected, or that have no running attempt. -/
def RequeuesSelected (o : ReapPool) (move : ReapMove) : Prop :=
  ∀ i now p f k, move = .exec i →
    o.pool.client i = some (.reapExpiredLocks now, .call (.job (.updateJobs p f)) k) →
    ∀ id r, (o.pool.store.jobs.cell id).visible i = some r → Tx.expired now r = true →
      (∀ r', (o.pool.store.jobs.cell id).pending ≠ some (i, r')) →
      ∀ k a, (o.pool.store.attempts.cell k).committed = some a → ¬RunningOf r a

/-- No transaction commits a running attempt of a job that another client, a reaper that has closed its attempts, has
    locked. -/
def StartsNone (o : ReapPool) (move : ReapMove) : Prop :=
  ∀ j call answer, move = .finish j → o.pool.client j = some (call, .done (.ok answer)) →
    ∀ i, i ≠ j → o.history i = true → ∀ id r, (o.pool.store.jobs.cell id).pending = some (i, r) →
      ∀ k a, (o.pool.store.attempts.cell k).pending = some (j, a) → ¬RunningOf r a

/-- The steps at which both hold. -/
def ReapStep (o : ReapPool) (move : ReapMove) (_ : ReapPool) : Prop := RequeuesSelected o move ∧ StartsNone o move

/-! ## Statements -/

section Statements

variable {i j : ClientId} {s s' : Store}

/-- A job statement leaves the attempts alone, or is an `UPDATE` of them. -/
theorem exec_attempts {c : Stmt} {r : c.Reply} (h : c.exec i s = some (r, s')) :
    s'.attempts = s.attempts ∨ ∃ p f answer, s.attempts.update i p f = some (answer, s'.attempts) := by
  cases c with
  | select => cases h; exact Or.inl rfl
  | updateJobs p f =>
      obtain ⟨answer, _, heq⟩ := Option.map_eq_some_iff.mp h
      cases heq
      exact Or.inl rfl
  | claimJobs choose f => cases h; exact Or.inl rfl
  | updateAttempts p fits f =>
      simp only [Stmt.exec] at h
      split at h
      · obtain ⟨answer, hupd, heq⟩ := Option.map_eq_some_iff.mp h
        cases heq
        exact Or.inr ⟨_, _, answer.1, hupd⟩
      · cases h
        exact Or.inl rfl
  | insertJob row =>
      obtain ⟨jobs, _, heq⟩ := Option.map_eq_some_iff.mp h
      cases heq
      exact Or.inl rfl
  | insertDecision decision =>
      obtain ⟨decisions, _, heq⟩ := Option.map_eq_some_iff.mp h
      cases heq
      exact Or.inl rfl

/-- What a step of client `i` leaves to the others: the rows that they have pending, and the keys. -/
structure Leaves (i : ClientId) (s s' : Store) : Prop where
  jobs : ∀ j, j ≠ i → Versions.Steady j s.jobs s'.jobs
  attempts : ∀ j, j ≠ i → Versions.Steady j s.attempts s'.attempts
  listed : s.attempts.Listed → s'.attempts.Listed

/-- A statement writes for its own transaction only, and commits nothing. -/
theorem exec_leaves {c : Statement} {r : c.Reply} (h : c.exec i s = some (r, s')) :
    Leaves i s s' ∧ ∀ k, (s'.attempts.cell k).committed = (s.attempts.cell k).committed := by
  cases c with
  | job c =>
      rcases exec_attempts h with hsame | ⟨p, f, answer, hupd⟩
      · rw [hsame]
        refine ⟨⟨fun j hj => exec_steady h hj, fun j _ => ?_, fun hl => ?_⟩, fun _ => rfl⟩ <;> rw [hsame]
        · exact Versions.Steady.refl _ _
        · exact hl
      · have hw := Versions.update_wrote hupd
        refine ⟨⟨fun j hj => exec_steady h hj, fun j hj => hw.steady hj, fun hl => ?_⟩, fun k => ?_⟩
        · exact hl.wrote hw (Versions.update_keys hupd)
        · rcases hw k with hsame | ⟨_, _, _, _, _, hcell⟩
          · rw [hsame]
          · rw [hcell]
  | startAttempt row =>
      obtain ⟨attempts, hins, heq⟩ := Option.map_eq_some_iff.mp h
      cases heq
      refine ⟨⟨fun j _ => Versions.Steady.refl _ _, fun j hj => Versions.insert_steady hins hj, fun hl => ?_⟩,
        fun k => ?_⟩
      · exact hl.insert hins
      · rcases Versions.insert_cases hins k with hsame | ⟨_, hold, hnew⟩
        · rw [hsame]
        · rw [hold, hnew]

theorem commit_leaves (s : Store) (i : ClientId) : Leaves i s (s.commit i) :=
  ⟨fun _ hj => Versions.commit_steady hj, fun _ hj => Versions.commit_steady hj, fun hl => hl.commit⟩

theorem rollback_leaves (s : Store) (i : ClientId) : Leaves i s (s.rollback i) :=
  ⟨fun _ hj => Versions.rollback_steady hj, fun _ hj => Versions.rollback_steady hj, fun hl => hl.rollback⟩

end Statements

/-! ## The discipline of the clients -/

/-- Every running attempt of a job that the client has pending is pending as closed. -/
def Closed (i : ClientId) (s : Store) : Prop :=
  ∀ id r, (s.jobs.cell id).pending = some (i, r) →
    ∀ k a, (s.attempts.cell k).committed = some a → RunningOf r a →
      ∃ a', (s.attempts.cell k).pending = some (i, a') ∧ LeaseExpired a'

/-- The client has written no attempt. -/
def NoAttempt (i : ClientId) (s : Store) : Prop := ∀ k a, (s.attempts.cell k).pending ≠ some (i, a)

/-- Where a reaper has closed its attempts, it has closed those of all the jobs that it has pending. -/
structure ReapInv (w : World Store Closing) : Prop where
  listed : w.store.attempts.Listed
  closed : ∀ i, w.history i = true → Closed i w.store

/-- What a client relies on: its pending rows are left alone, and it is known how far it is. -/
structure ReapRely (i : ClientId) (w w' : World Store Closing) : Prop where
  jobs : Versions.Steady i w.store.jobs w'.store.jobs
  attempts : Versions.Steady i w.store.attempts w'.store.attempts
  history : w'.history i = w.history i

/-- A client in no transaction. -/
structure ReapIdle (i : ClientId) (w : World Store Closing) : Prop where
  jobs : Clean i w.store
  attempts : NoAttempt i w.store
  history : w.history i = false

/-- What a client promises when it sends a statement: once a reaper has closed its attempts, it only requeues jobs; and
    when it closes them, those are all the running attempts of the jobs that it has pending. -/
structure ReapPromise (i : ClientId) (call : ReapCall) (c : Statement) (w : World Store Closing) : Prop where
  requeues : w.history i = true → ∃ now, call = .reapExpiredLocks now ∧
    c = .job (.updateJobs (Tx.expired now) { set := Tx.requeuedRow now })
  closes : ∀ now p fits f, call = .reapExpiredLocks now → c = .job (.updateAttempts p fits f) →
    (∀ a, LeaseExpired (f.set a)) ∧ NoAttempt i w.store ∧
      ∀ id r, (w.store.jobs.cell id).pending = some (i, r) → ∀ a, RunningOf r a → p a = true

/-- A reaper that returns `Ok` has closed its attempts, or has no job pending. -/
def ReapResult (i : ClientId) (call : ReapCall) (outcome : Outcome Answer) (w : World Store Closing) : Prop :=
  ∀ now answer, call = .reapExpiredLocks now → outcome = .ok answer → w.history i = true ∨ Clean i w.store

/-- The discipline of the clients. -/
def reapDiscipline : Discipline ClientId ReapCall Statement (Outcome Answer) Store Closing where
  inv := ReapInv
  idle := ReapIdle
  rely := ReapRely
  promise := ReapPromise
  result := ReapResult

section Discipline

variable {i j : ClientId} {call : ReapCall} {w w' w'' : World Store Closing}

theorem ReapRely.refl (i : ClientId) (w : World Store Closing) : ReapRely i w w :=
  ⟨Versions.Steady.refl _ _, Versions.Steady.refl _ _, rfl⟩

theorem ReapRely.trans (h : ReapRely i w w') (h' : ReapRely i w' w'') : ReapRely i w w'' :=
  ⟨h.jobs.trans h'.jobs, h.attempts.trans h'.attempts, h'.history.trans h.history⟩

theorem NoAttempt.later (h : NoAttempt i w.store) (hrely : ReapRely i w w') : NoAttempt i w'.store :=
  fun k a ha => h k a (hrely.attempts.pending.mp ha)

theorem Clean.later (h : Clean i w.store) (hrely : ReapRely i w w') : Clean i w'.store := h.steady hrely.jobs

theorem ReapIdle.later (h : ReapIdle i w) (hrely : ReapRely i w w') : ReapIdle i w' :=
  ⟨h.jobs.later hrely, h.attempts.later hrely, hrely.history.trans h.history⟩

/-- What a client has closed stays closed, where nobody starts an attempt of its jobs. -/
theorem Closed.later (h : Closed i w.store) (hrely : ReapRely i w w')
    (hstarts : ∀ k a, (w'.store.attempts.cell k).committed = some a →
      (w.store.attempts.cell k).committed = some a ∨
        ∀ id r, (w.store.jobs.cell id).pending = some (i, r) → ¬RunningOf r a) : Closed i w'.store := by
  intro id r hr k a ha hrun
  rw [hrely.jobs.pending] at hr
  rcases hstarts k a ha with hold | hnone
  · obtain ⟨a', hp, hexp⟩ := h id r hr k a hold hrun
    exact ⟨a', hrely.attempts.pending.mpr hp, hexp⟩
  · exact absurd hrun (hnone id r hr)

/-! ### The programs -/

/-- A transaction that is no reaper closes nothing as one. -/
theorem other_keeps (tx p : Statements (Outcome Answer)) (h : w.history i = false) :
    reapDiscipline.Keeps closingRecorder statementServer i (.other tx) p w := by
  refine Discipline.keeps_of_avoids (P := fun _ => False) (I := fun w : World Store Closing => w.history i = false)
    ?_ ?_ ?_ ?_ p w (Prog.avoids_false p) h
  · intro w w' hrely hI
    exact (ReapRely.history hrely).trans hI
  · intro c w _ hI
    refine ReapPromise.mk (fun hc => ?_) (fun _ _ _ _ he => nomatch he)
    rw [hI] at hc
    cases hc
  · intro outcome w _ _ _ he
    cases he
  · intro c w r σ' _ hI _
    exact hI

/-- What the `SELECT` of the reaper locks is all that it has pending. -/
theorem found_pending {choose : List JobRow → List JobRow} {f : Table.Assign JobRow.rowId} (h : Clean i w.store)
    {id : Uuid} {r : JobRow} (hr : ((w.store.jobs.claim i choose f).2.cell id).pending = some (i, r)) :
    r ∈ (w.store.jobs.claim i choose f).1 := by
  rcases Versions.claim_pending hr with hold | hmem
  · exact absurd hold (h id r)
  · exact hmem

/-- **The reaper keeps its promises.** -/
theorem reapExpiredLocks_keeps (now : DateTime) (h : ReapIdle i w) :
    reapDiscipline.Keeps closingRecorder statementServer i (.reapExpiredLocks now)
      (Tx.reapExpiredLocks now).statements w := by
  simp only [Tx.reapExpiredLocks, Tx.claimJobs, Tx.updateAttempts, Tx.updateJobs, Prog.call_bind, Prog.done_bind,
    Prog.pure_eq, Tx.statements]
  intro w₁ h₁ _
  have hidle₁ := h.later h₁
  refine ⟨ReapPromise.mk (fun hc => ?_) (fun _ _ _ _ _ he => by cases he), fun found σ₁ hans _ => ?_⟩
  · rw [hidle₁.history] at hc
    cases hc
  obtain ⟨hfound, hstore⟩ := Prod.mk.inj (Option.some.inj hans)
  -- the jobs that are pending now are those that were found
  have hpending : ∀ id r, (σ₁.jobs.cell id).pending = some (i, r) → r ∈ found := by
    rw [← hstore, ← hfound]
    exact fun id r hr => found_pending hidle₁.jobs hr
  have hnone : NoAttempt i σ₁ := by
    rw [← hstore]
    exact hidle₁.attempts
  show reapDiscipline.Keeps _ _ _ _ (Tx.statements (if found.isEmpty then _ else _))
    { store := σ₁, history := w₁.history }
  split
  · -- nothing was found: nothing is pending
    rename_i hempty
    intro w₂ h₂ _ _ _ _ _
    refine Or.inr fun id r hr => ?_
    have hmem := hpending id r ((ReapRely.jobs h₂).pending.mp hr)
    rw [List.isEmpty_iff.mp hempty] at hmem
    cases hmem
  · intro w₂ h₂ _
    refine ⟨ReapPromise.mk (fun hc => ?_) ?_, fun answer σ₂ _ _ => ?_⟩
    · rw [ReapRely.history h₂, hidle₁.history] at hc
      cases hc
    · rintro _ p fits f ⟨⟩ he
      cases he
      refine ⟨fun _ => ⟨rfl, rfl⟩, fun k a ha => hnone k a ((ReapRely.attempts h₂).pending.mp ha), ?_⟩
      rintro id r hr a ⟨hjob, hdataset, hrun⟩
      have hmem := hpending id r ((ReapRely.jobs h₂).pending.mp hr)
      have hds : a.datasetId ∈ found.map (·.datasetId) := List.mem_map.mpr ⟨r, hmem, hdataset.symm⟩
      have hid : a.jobId ∈ found.map (·.id) := List.mem_map.mpr ⟨r, hmem, hjob.symm⟩
      show (decide _ && decide _ && _) = true
      rw [decide_eq_true hds, decide_eq_true hid, hrun]
      rfl
    · cases answer with
      | error e => exact fun w₃ _ _ _ _ _ he => by cases he
      | ok n =>
          -- the attempts are closed: what is left is the requeueing
          intro w₃ h₃ _
          have hclosing : w₃.history i = true := (ReapRely.history h₃).trans (Function.update_self ..)
          refine ⟨ReapPromise.mk (fun _ => ⟨now, rfl, rfl⟩) (fun _ _ _ _ _ he => by cases he), fun _ σ₃ _ _ => ?_⟩
          intro w₄ h₄ _ _ _ _ _
          exact Or.inl ((ReapRely.history h₄).trans hclosing)

/-! ### The steps -/

/-- A statement leaves the history alone, or a reaper closes attempts. -/
theorem sent_cases {s s' : Store} {c : Statement} {r : c.Reply} (h : c.exec i s = some (r, s')) (call : ReapCall)
    (closing : Closing) :
    Closing.sent i call c s r closing = closing ∨
      ∃ now p fits f answer, call = .reapExpiredLocks now ∧ c = .job (.updateAttempts p fits f) ∧
        Closing.sent i call c s r closing = Function.update closing i true ∧ s'.jobs = s.jobs ∧
        s.attempts.update i p f = some (answer, s'.attempts) := by
  unfold Closing.sent
  split
  · rename_i now p fits f n
    right
    simp only [Statement.exec, Stmt.exec] at h
    split at h
    · obtain ⟨answer, hupd, heq⟩ := Option.map_eq_some_iff.mp h
      cases heq
      exact ⟨now, p, fits, f, answer.1, rfl, rfl, rfl, rfl, hupd⟩
    · cases h
  · exact Or.inl rfl

/-- An `UPDATE` that selects all running attempts of the jobs that are pending, and closes what it selects. -/
theorem closed_of_update {s s' : Store} {p : AttemptRow → Bool} {f : Table.Assign AttemptRow.id}
    {answer : List AttemptRow} (hlisted : s.attempts.Listed) (hnone : NoAttempt i s)
    (hset : ∀ a, LeaseExpired (f.set a))
    (hp : ∀ id r, (s.jobs.cell id).pending = some (i, r) → ∀ a, RunningOf r a → p a = true)
    (hjobs : s'.jobs = s.jobs) (hupd : s.attempts.update i p f = some (answer, s'.attempts)) : Closed i s' := by
  intro id r hr k a ha hrun
  rw [hjobs] at hr
  have hvis : (s.attempts.cell k).visible i = (s.attempts.cell k).committed :=
    Cell.visible_committed fun r => hnone k r
  have hcom : (s'.attempts.cell k).committed = (s.attempts.cell k).committed := by
    rcases Versions.update_wrote hupd k with hsame | ⟨_, _, _, _, _, hcell⟩
    · rw [hsame]
    · rw [hcell]
  rw [hcom, ← hvis] at ha
  rw [Versions.update_cell hupd (hlisted.mem ha) ha (hp id r hr a hrun)]
  exact ⟨f.set a, rfl, hset a⟩

/-- An `UPDATE` that requeues jobs that are pending, or have no running attempt. -/
theorem Closed.requeue {s s' : Store} {now : DateTime} {answer : List JobRow} (h : Closed i s)
    (hselected : ∀ id r, (s.jobs.cell id).visible i = some r → Tx.expired now r = true →
      (∀ r', (s.jobs.cell id).pending ≠ some (i, r')) →
        ∀ k a, (s.attempts.cell k).committed = some a → ¬RunningOf r a)
    (hattempts : s'.attempts = s.attempts)
    (hupd : s.jobs.update i (Tx.expired now) { set := Tx.requeuedRow now } = some (answer, s'.jobs)) :
    Closed i s' := by
  intro id r' hr' k a ha hrun
  rw [hattempts] at ha ⊢
  rcases Versions.update_wrote hupd id with hsame | ⟨r, _, hvis, _, ⟨hp, rfl⟩, hcell⟩
  · rw [hsame] at hr'
    exact h id r' hr' k a ha hrun
  · rw [hcell] at hr'
    cases hr'
    -- the requeued row is of the same job as the one it replaces
    have hrun' : RunningOf r a := hrun
    rcases Cell.visible_cases hvis with hown | ⟨_, hnot⟩
    · exact h id r hown k a ha hrun'
    · exact absurd hrun' (hselected id r hvis hp hnot k a ha)

/-- A statement is executed. -/
theorem exec_reaps {o : ReapPool} {c : Statement} {k : c.Reply → Statements (Outcome Answer)} {r : c.Reply}
    {σ' : Store} (h : ReapInv o.world) (hi : o.pool.client i = some (call, .call c k))
    (hexec : c.exec i o.pool.store = some (r, σ')) (hpromise : ReapPromise i call c o.world)
    (hok : RequeuesSelected o (.exec i)) :
    let w' : World Store Closing := { store := σ', history := Closing.sent i call c o.pool.store r o.history }
    ReapInv w' ∧ ∀ j, j ≠ i → ReapRely j o.world w' := by
  intro w'
  obtain ⟨hleaves, hcommitted⟩ := exec_leaves hexec
  have hsent := sent_cases hexec call o.history
  have hhistory : ∀ j, j ≠ i → w'.history j = o.history j := by
    intro j hj
    rcases hsent with hsame | ⟨_, _, _, _, _, _, _, hnew, _⟩
    · exact congrFun hsame j
    · exact (congrFun hnew j).trans (Function.update_of_ne hj ..)
  have hrely : ∀ j, j ≠ i → ReapRely j o.world w' :=
    fun j hj => ⟨hleaves.jobs j hj, hleaves.attempts j hj, hhistory j hj⟩
  refine ⟨⟨hleaves.listed h.listed, fun j hclosing => ?_⟩, hrely⟩
  by_cases hj : j = i
  · subst hj
    rcases hsent with hsame | ⟨now, p, fits, f, answer, hcall, hc, _, hjobs, hupd⟩
    · -- a reaper that has closed its attempts only requeues jobs
      have hbefore : o.history j = true := (congrFun hsame j).symm.trans hclosing
      obtain ⟨now, hcall, hc⟩ := hpromise.requeues hbefore
      subst hcall hc
      obtain ⟨answer, hupd, heq⟩ := Option.map_eq_some_iff.mp hexec
      cases heq
      exact (h.closed j hbefore).requeue (hok j now _ _ k rfl hi) rfl hupd
    · -- a reaper closes its attempts
      obtain ⟨hset, hnone, hp⟩ := hpromise.closes now p fits f hcall hc
      exact closed_of_update h.listed hnone hset hp hjobs hupd
  · have hbefore : o.history j = true := (hhistory j hj).symm.trans hclosing
    exact (h.closed j hbefore).later (hrely j hj) fun k a ha => Or.inl ((hcommitted k).symm.trans ha)

/-- A client ends. -/
theorem end_reaps {σ' : Store} (h : ReapInv w) (hleaves : Leaves i w.store σ')
    (hstarts : ∀ k a, (σ'.attempts.cell k).committed = some a → (w.store.attempts.cell k).committed = some a ∨
      ∀ j, j ≠ i → w.history j = true → ∀ id r, (w.store.jobs.cell id).pending = some (j, r) → ¬RunningOf r a) :
    let w' : World Store Closing := { store := σ', history := Function.update w.history i false }
    ReapInv w' ∧ ∀ j, j ≠ i → ReapRely j w w' := by
  intro w'
  have hrely : ∀ j, j ≠ i → ReapRely j w w' :=
    fun j hj => ⟨hleaves.jobs j hj, hleaves.attempts j hj, Function.update_of_ne hj ..⟩
  refine ⟨⟨hleaves.listed h.listed, fun j hclosing => ?_⟩, hrely⟩
  have hj : j ≠ i := by
    rintro rfl
    rw [show w'.history j = false from Function.update_self ..] at hclosing
    cases hclosing
  have hbefore : w.history j = true := (hrely j hj).history.symm.trans hclosing
  exact (h.closed j hbefore).later (hrely j hj) fun k a ha => (hstarts k a ha).imp id fun hnone => hnone j hj hbefore

/-- A transaction that is rolled back. -/
theorem rollback_reaps (h : ReapInv w) :
    let w' : World Store Closing := { store := w.store.rollback i, history := Function.update w.history i false }
    (ReapInv w' ∧ ∀ j, j ≠ i → ReapRely j w w') ∧ ReapIdle i w' :=
  ⟨end_reaps h (rollback_leaves w.store i) fun k _ ha => Or.inl ((Versions.rollback_committed k).symm.trans ha),
    ⟨rollback_clean w.store i, fun _ _ => Versions.rollback_pending, Function.update_self ..⟩⟩

/-- **The transactions keep the discipline**, where a reaper requeues what it has selected, and nobody starts an
    attempt on a job that it requeues. -/
theorem reap_obeyed :
    reapDiscipline.Obeyed closingRecorder statementServer ReapCall.program (reapSystem.restrict ReapStep) where
  next h := h.1
  refl := ReapRely.refl
  trans _ _ _ _ := ReapRely.trans
  idle := ReapIdle.later
  init := by
    rintro o ⟨⟨db, hdb⟩, hclients, hhist⟩
    have hw : o.world = { store := .ofDb db, history := fun _ => false } := by
      unfold Observed.world
      rw [hdb, hhist]
    rw [hw]
    exact ⟨hclients, ⟨Versions.ofRows_listed _ _, fun _ hc => nomatch hc⟩,
      fun _ => ⟨fun _ _ hr => (by cases hr), fun _ _ hr => (by cases hr), rfl⟩⟩
  start := by
    intro o i call o' h _ hidle
    refine ⟨⟨h.inv, fun _ _ => ReapRely.refl _ _⟩, ?_⟩
    cases call with
    | reapExpiredLocks now => exact reapExpiredLocks_keeps now hidle
    | other tx => exact other_keeps tx tx (ReapIdle.history hidle)
  exec := by
    intro o i call c k r σ' o' h hstep hi hexec hpromise
    obtain ⟨hinv, hrely⟩ := exec_reaps h.inv hi hexec hpromise hstep.2.1
    exact ⟨hinv, hrely⟩
  finish := by
    intro o i call outcome o' h hstep hi _
    cases outcome with
    | ok answer =>
        obtain ⟨hinv, hrely⟩ := end_reaps h.inv (commit_leaves o.pool.store i) fun k a ha =>
          (Versions.commit_committed ha).imp id fun hp j hj hclosing id r hr =>
            hstep.2.2 i call answer rfl hi j hj hclosing id r hr k a hp
        exact ⟨⟨hinv, hrely⟩, ⟨commit_clean o.pool.store i, fun _ _ => Versions.commit_pending,
          Function.update_self ..⟩⟩
    | err message =>
        obtain ⟨⟨hinv, hrely⟩, hidle⟩ := rollback_reaps (i := i) h.inv
        exact ⟨⟨hinv, hrely⟩, hidle⟩
    | panic =>
        obtain ⟨⟨hinv, hrely⟩, hidle⟩ := rollback_reaps (i := i) h.inv
        exact ⟨⟨hinv, hrely⟩, hidle⟩
  crash := by
    intro o i call p o' h _ _ _
    obtain ⟨⟨hinv, hrely⟩, hidle⟩ := rollback_reaps (i := i) h.inv
    exact ⟨⟨hinv, hrely⟩, hidle⟩

end Discipline

/-- **When the reaper closes what it requeues.** In every run in which no reaper requeues a job with a running attempt
    that it has not selected, and nobody starts an attempt on a job whose attempts a reaper has closed and that it still
    holds: at every step, every job that a reaper moves from `running` to `queued` has all its running attempts closed
    by it. -/
theorem reap_closes_requeued {o : ReapPool} (ho : (reapSystem.restrict ReapStep).Reachable o) :
    ∀ move o', reapSystem.step o move o' → ReapLaw o move o' := by
  rintro _ o' hstep i now answer rfl hi id r r' hr hrunning hr' hqueued k a ha hrun
  have hholds := reap_obeyed.holds ho
  obtain ⟨call, _, hi', rfl⟩ := Recorder.next_finish hstep
  rw [hi] at hi'
  cases hi'
  -- the row was committed by this transaction: it had it pending
  have hpending : (o.pool.store.jobs.cell id).pending = some (i, r') := by
    rcases Versions.commit_committed hr' with hold | hp
    · rw [hr] at hold
      cases hold
      exact absurd (hrunning.symm.trans hqueued) (by decide)
    · exact hp
  have hclosed : Closed i o.pool.store := by
    rcases reap_obeyed.result_of hholds hi now answer rfl rfl with hclosing | hclean
    · exact hholds.inv.closed i hclosing
    · exact absurd hpending (hclean id r')
  obtain ⟨a', hp, hexpired⟩ := hclosed id r' hpending k a ha hrun
  exact ⟨a', Versions.commit_of_pending hp, hexpired⟩

/-! ### An acknowledgement is rolled back -/

/-- Two jobs whose leases end at 100, each with a running attempt. -/
def twoLeased : ReapPool :=
  { pool :=
      { store := .ofDb
          { jobs := ⟨[leasedEmail, { leasedEmail with id := 2 }], by decide⟩
            attempts := ⟨[leasedAttempt, { leasedAttempt with id := 12, jobId := 2 }], by decide⟩
            queuePolicies := fun _ => none, policyDecisions := [] }
        client := fun _ => none }
    history := fun _ => false }

/-- The acknowledgement of the first job. -/
def ackFirst : ReapCall := .other (Tx.markSucceeded ⟨200, 3, .ok ()⟩ 1 11 "w1" 5).statements

/-- An acknowledgement holds the first job while the reaper selects; it is rolled back before the reaper requeues. -/
def ackRolledBack : List ReapMove :=
  [.start 0 ackFirst, .exec 0, .exec 0,
    .start 1 (.reapExpiredLocks 200), .exec 1, .exec 1,
    .crash 0, .exec 1]

/-- The pool in which the reaper is about to commit, and the pool in which it has. -/
def requeued : ReapPool := (closingRecorder.run statementServer ReapCall.program twoLeased ackRolledBack).getD twoLeased
def reaped : ReapPool := (closingRecorder.next statementServer ReapCall.program requeued (.finish 1)).getD requeued

/-- The reaper gives the first job back to its queue, and its attempt is still running. -/
theorem reap_leaves_running :
    reapSystem.Reachable requeued ∧ reapSystem.step requeued (.finish 1) reaped ∧
    (requeued.pool.store.jobs.cell 1).committed.map (·.status) = some "running" ∧
    (reaped.pool.store.jobs.cell 1).committed.map (·.status) = some "queued" ∧
    (reaped.pool.store.attempts.cell 11).committed.map (·.status) = some "running" ∧
    ¬ReapLaw requeued (.finish 1) reaped := by
  have hrun : closingRecorder.run statementServer ReapCall.program twoLeased ackRolledBack = some requeued := rfl
  have hrunning : (reaped.pool.store.attempts.cell 11).committed = some leasedAttempt := rfl
  refine ⟨Recorder.reachable_run _ (.start ⟨⟨_, rfl⟩, fun _ => rfl, rfl⟩) hrun, rfl, by decide, by decide, by decide, ?_⟩
  intro hlaw
  obtain ⟨a', ha', hfailed, _⟩ := hlaw 1 200 (.count 2) rfl rfl 1 leasedEmail (Tx.requeuedRow 200 leasedEmail) rfl rfl
    rfl rfl 11 leasedAttempt rfl ⟨rfl, rfl, rfl⟩
  rw [hrunning] at ha'
  cases ha'
  exact absurd hfailed (by decide)

/-! ### A reaper that nobody disturbs -/

/-- The reaper alone, after `n` of its moves. -/
def reapAlone (n : Nat) : ReapPool :=
  (closingRecorder.run statementServer ReapCall.program twoLeased
    ([.start 1 (.reapExpiredLocks 200), .exec 1, .exec 1, .exec 1, .finish 1].take n)).getD twoLeased

theorem reapAlone_reachable : (reapSystem.restrict ReapStep).Reachable (reapAlone 4) := by
  have hnotExec : ∀ {n : Nat} {move : ReapMove}, (∀ i, move ≠ .exec i) → RequeuesSelected (reapAlone n) move :=
    fun hne _ _ _ _ _ he => absurd he (hne _)
  have hnotFinish : ∀ {n : Nat} {move : ReapMove}, (∀ i, move ≠ .finish i) → StartsNone (reapAlone n) move :=
    fun hne _ _ _ he => absurd he (hne _)
  have hstart : (reapSystem.restrict ReapStep).Reachable (reapAlone 0) := .start ⟨⟨_, rfl⟩, fun _ => rfl, rfl⟩
  have hcall : (reapSystem.restrict ReapStep).Reachable (reapAlone 1) :=
    hstart.next (i := .start 1 (.reapExpiredLocks 200))
      ⟨rfl, hnotExec fun _ he => (by cases he), hnotFinish fun _ he => (by cases he)⟩
  have hselect : (reapSystem.restrict ReapStep).Reachable (reapAlone 2) := by
    refine hcall.next (i := .exec 1) ⟨rfl, ?_, hnotFinish fun _ he => (by cases he)⟩
    rintro _ _ _ _ _ ⟨⟩ hi
    cases hi
  have hclose : (reapSystem.restrict ReapStep).Reachable (reapAlone 3) := by
    refine hselect.next (i := .exec 1) ⟨rfl, ?_, hnotFinish fun _ he => (by cases he)⟩
    rintro _ _ _ _ _ ⟨⟩ hi
    cases hi
  refine hclose.next (i := .exec 1) ⟨rfl, ?_, hnotFinish fun _ he => (by cases he)⟩
  rintro _ _ _ _ _ ⟨⟩ _ id r hvis _ hnot k a ha ⟨hjob, _, _⟩
  -- there are two attempts, of the two jobs that it has selected
  have hkey : r.id = id := (reapAlone 3).pool.store.jobs.key_visible hvis
  have hk : k ∈ [(11 : Uuid), 12] := by
    by_contra hk
    have hlisted : (reapAlone 3).pool.store.attempts.Listed := (reap_obeyed.holds hclose).inv.listed
    rw [hlisted k hk] at ha
    cases ha
  rcases List.mem_pair.mp hk with rfl | rfl
  · have ha₁ : ((reapAlone 3).pool.store.attempts.cell 11).committed = some leasedAttempt := rfl
    rw [ha₁] at ha
    cases ha
    rw [← hjob] at hkey
    subst hkey
    exact hnot _ rfl
  · have ha₂ : ((reapAlone 3).pool.store.attempts.cell 12).committed =
        some { leasedAttempt with id := 12, jobId := 2 } := rfl
    rw [ha₂] at ha
    cases ha
    rw [← hjob] at hkey
    subst hkey
    exact hnot _ rfl

/-- Both jobs are queued, and both attempts have failed. -/
theorem undisturbed_reap_closes :
    ReapLaw (reapAlone 4) (.finish 1) (reapAlone 5) ∧
    ((reapAlone 5).pool.store.jobs.cell 1).committed.map (·.status) = some "queued" ∧
    ((reapAlone 5).pool.store.attempts.cell 11).committed.map (·.status) = some "failed" :=
  ⟨reap_closes_requeued reapAlone_reachable _ _ rfl, by decide, by decide⟩

end Azums.Postgres
