import Azums.Sqlite.Sweeps

/-!
# `Sqlite.Simulation` — SQLite simulates the memory backend

Both backends as machines that answer requests (`Lib.System`). A `Request` carries what both calls share: the
arguments, the clock reading, the fresh ids; and the order in which the memory backend would see a map it iterates
over. Jobs enter with `enqueue_in_tx` on one side and `enqueue` on the other.

`sqlite_simulates_memory` is the main result: on every list of requests, call by call, the two machines give the same
answers and hold the same stores. The relation that carries the induction is `Simulation`: the same stores, and the
invariants of each side. It assumes that the texts of timestamps compare as time, and that the payloads that are
enqueued come back as they were bound.
-/

namespace Azums.Sqlite

open Memory (InnerState MemOp Enumerates Numbered WellFormed HasRoom NextInRange Unused)

/-! ## Requests and replies -/

/-- A call of the execution core. -/
inductive Request where
  | enqueue (now : DateTime) (newId : Uuid) (order : List Uuid) (job : NewJob)
  | leaseJobsBatch (now : DateTime) (queue workerId : String) (leaseSeconds batchSize : Int)
  | startAttempt (now : DateTime) (jobId attemptId : Uuid) (workerId : String)
  | extendLease (now : DateTime) (jobId : Uuid) (workerId : String) (leaseSeconds : Int)
  | markSucceeded (now : DateTime) (newId jobId attemptId : Uuid) (workerId : String) (latencyMs : Int)
  | rescheduleForRetry (now : DateTime) (jobId attemptId : Uuid) (workerId : String) (latencyMs : Int)
      (nextRunAt : DateTime) (errorCode errorMessage : String)
  | markDlq (now : DateTime) (jobId attemptId : Uuid) (workerId : String) (latencyMs : Int)
      (reasonCode errorCode errorMessage : String)
  | cancelJob (now : DateTime) (attemptOrder : List Uuid) (jobId : Uuid) (workerId : Option String)
  | reapExpiredLocks (now : DateTime) (order : List Uuid)

/-- The value of a call. -/
inductive Reply where
  | id (jobId : Uuid)
  | jobs (leased : List Job)
  | started (attempts : List (Uuid × Uuid × Int))
  | extended (held : Bool)
  | done
  | reaped (count : Nat)
deriving DecidableEq

/-- The answer of a call, under the common type of replies. -/
def replying {α σ : Type} (f : α → Reply) : Outcome α × σ → Outcome Reply × σ
  | (.ok a, s) => (.ok (f a), s)
  | (.err message, s) => (.err message, s)
  | (.panic, s) => (.panic, s)

namespace Request

/-- `SqliteBackend`. -/
def sqlite (texts : Texts) : Request → Db → Outcome Reply × Db
  | enqueue now newId _ job, db => replying .id (enqueueInTx db now newId job)
  | leaseJobsBatch now queue workerId leaseSeconds batchSize, db =>
      replying .jobs (Sqlite.leaseJobsBatch texts db now queue workerId leaseSeconds batchSize)
  | startAttempt now jobId attemptId workerId, db =>
      replying .started (startAttemptsBatch db now [(jobId, attemptId)] workerId)
  | extendLease now jobId workerId leaseSeconds, db =>
      replying .extended (Sqlite.extendLease db now jobId workerId leaseSeconds)
  | markSucceeded now newId jobId attemptId workerId latencyMs, db =>
      replying (fun _ => .done) (Sqlite.markSucceeded texts db now newId jobId attemptId workerId latencyMs)
  | rescheduleForRetry now jobId attemptId workerId latencyMs nextRunAt errorCode errorMessage, db =>
      replying (fun _ => .done)
        (Sqlite.rescheduleForRetry db now jobId attemptId workerId latencyMs nextRunAt errorCode errorMessage)
  | markDlq now jobId attemptId workerId latencyMs reasonCode errorCode errorMessage, db =>
      replying (fun _ => .done)
        (Sqlite.markDlq db now jobId attemptId workerId latencyMs reasonCode errorCode errorMessage)
  | cancelJob now _ jobId workerId, db => replying (fun _ => .done) (Sqlite.cancelJob db now jobId workerId)
  | reapExpiredLocks now _, db => replying .reaped (Sqlite.reapExpiredLocks texts db now)

/-- `MemoryBackend`. -/
def memory : Request → InnerState → Outcome Reply × InnerState
  | enqueue now newId order job, s => replying .id (Memory.enqueue s now newId order job)
  | leaseJobsBatch now queue workerId leaseSeconds batchSize, s =>
      replying .jobs (Memory.leaseJobsBatch s now queue workerId leaseSeconds batchSize)
  | startAttempt now jobId attemptId workerId, s =>
      replying .started (Memory.startAttemptsBatch s now [(jobId, attemptId)] workerId)
  | extendLease now jobId workerId leaseSeconds, s =>
      replying .extended (Memory.extendLease s now jobId workerId leaseSeconds)
  | markSucceeded now newId jobId attemptId workerId latencyMs, s =>
      replying (fun _ => .done) (Memory.markSucceeded s now newId jobId attemptId workerId latencyMs)
  | rescheduleForRetry now jobId attemptId workerId latencyMs nextRunAt errorCode errorMessage, s =>
      replying (fun _ => .done)
        (Memory.rescheduleForRetry s now jobId attemptId workerId latencyMs nextRunAt errorCode errorMessage)
  | markDlq now jobId attemptId workerId latencyMs reasonCode errorCode errorMessage, s =>
      replying (fun _ => .done)
        (Memory.markDlq s now jobId attemptId workerId latencyMs reasonCode errorCode errorMessage)
  | cancelJob now attemptOrder jobId workerId, s =>
      replying (fun _ => .done) (Memory.cancelJob s now attemptOrder jobId workerId)
  | reapExpiredLocks now order, s => replying .reaped (Memory.reapExpiredLocks s now order)

/-- What a request may assume. Ids are fresh, an order lists its map, a batch size is not negative, a recurring job
    recurs after a second or more; and the additions that the backends make stay in range, those to a time in `chrono`'s
    and those to an attempt number below `i32::MAX`. -/
def Fair : Request → InnerState → Prop
  | enqueue _ newId order job, s => Unused s newId ∧ Enumerates s.jobs order ∧
      ∀ interval, job.recurringIntervalSeconds = some interval → 1 ≤ interval
  | leaseJobsBatch now queue _ leaseSeconds batchSize, s => 0 ≤ batchSize ∧
      (Memory.candidates (Memory.sweepDeadlines s now queue) now queue batchSize ≠ [] →
        (Chrono.addSeconds now leaseSeconds).isSome)
  | startAttempt _ jobId attemptId _, s => s.attempts attemptId = none ∧ HasRoom s jobId
  | extendLease now _ _ leaseSeconds, _ => (Chrono.addSeconds now leaseSeconds).isSome
  | markSucceeded _ newId jobId _ _ _, s => Unused s newId ∧ NextInRange s jobId
  | cancelJob _ attemptOrder _ _, s => Enumerates s.attempts attemptOrder
  | reapExpiredLocks _ order, s => Enumerates s.jobs order
  | rescheduleForRetry .., _ | markDlq .., _ => True

/-- The payload of a job that is enqueued comes back as it was bound. -/
def KeepsPayload (texts : Texts) : Request → Prop
  | enqueue _ _ _ job => texts.Keeps job.payloadJson
  | _ => True

/-- The same call, as one of `Memory.Run`. -/
def memOp : Request → MemOp
  | enqueue now newId order job => .enqueue now newId order job
  | leaseJobsBatch now queue workerId leaseSeconds batchSize =>
      .lease now queue workerId leaseSeconds batchSize .fifo
  | startAttempt now jobId attemptId workerId => .startAttempts now [(jobId, attemptId)] workerId
  | extendLease now jobId workerId leaseSeconds => .extendLease now jobId workerId leaseSeconds
  | markSucceeded now newId jobId attemptId workerId latencyMs =>
      .markSucceeded now newId jobId attemptId workerId latencyMs
  | rescheduleForRetry now jobId attemptId workerId latencyMs nextRunAt errorCode errorMessage =>
      .reschedule now jobId attemptId workerId latencyMs nextRunAt errorCode errorMessage
  | markDlq now jobId attemptId workerId latencyMs reasonCode errorCode errorMessage =>
      .markDlq now jobId attemptId workerId latencyMs reasonCode errorCode errorMessage
  | cancelJob now attemptOrder jobId workerId => .cancel now attemptOrder jobId workerId
  | reapExpiredLocks now order => .reap now order

end Request

/-! ## The simulation -/

/-- The relation between the two machines: the same stores, and the invariants of each side. -/
structure Simulation (texts : Texts) (db : Db) (s : InnerState) : Prop where
  stores : SameStores db s
  rows : RowsOk texts db
  wellFormed : WellFormed s
  numbered : Numbered s

variable {texts : Texts} {db : Db} {s : InnerState}

theorem Simulation.start : Simulation texts Db.empty InnerState.init :=
  ⟨SameStores.empty, RowsOk.empty, WellFormed.init, Numbered.init⟩

/-- Machines that agree have not panicked. -/
theorem Agree.returns {α : Type} {outcome outcome' : Outcome α} (h : Agree outcome outcome') : outcome' ≠ .panic := by
  rintro rfl
  cases h

theorem Simulates.reply {α : Type} {r : Outcome α × Db} {r' : Outcome α × InnerState} (h : Simulates r r')
    (f : α → Reply) : Simulates (replying f r) (replying f r') := by
  obtain ⟨outcome, db'⟩ := r
  obtain ⟨outcome', s'⟩ := r'
  obtain ⟨hanswer, hstores⟩ := h
  cases hanswer with
  | ok a => exact ⟨.ok _, hstores⟩
  | err message message' => exact ⟨.err _ _, hstores⟩

/-- One request. -/
theorem request_simulates (htimes : texts.CompareAsTime) (h : Simulation texts db s) (request : Request)
    (hfair : request.Fair s) : Simulates (request.sqlite texts db) (request.memory s) := by
  cases request with
  | enqueue now newId order job => exact (enqueue_simulates h.stores hfair.1.1 hfair.2.1 job).reply _
  | leaseJobsBatch now queue workerId leaseSeconds batchSize =>
      exact (leaseJobsBatch_simulates htimes h.stores h.rows h.wellFormed workerId hfair.1 hfair.2).reply _
  | startAttempt now jobId attemptId workerId =>
      exact (startAttempt_simulates h.stores h.numbered hfair.1 hfair.2 workerId).reply _
  | extendLease now jobId workerId leaseSeconds =>
      exact (extendLease_simulates h.stores jobId workerId hfair).reply _
  | markSucceeded now newId jobId attemptId workerId latencyMs =>
      exact (markSucceeded_simulates h.stores h.rows hfair.1.1 hfair.2 attemptId workerId latencyMs).reply _
  | rescheduleForRetry now jobId attemptId workerId latencyMs nextRunAt errorCode errorMessage =>
      exact (rescheduleForRetry_simulates h.stores jobId attemptId workerId latencyMs nextRunAt errorCode
        errorMessage).reply _
  | markDlq now jobId attemptId workerId latencyMs reasonCode errorCode errorMessage =>
      exact (markDlq_simulates h.stores jobId attemptId workerId latencyMs reasonCode errorCode errorMessage).reply _
  | cancelJob now attemptOrder jobId workerId =>
      exact (cancelJob_simulates h.stores h.rows h.numbered hfair jobId workerId).reply _
  | reapExpiredLocks now order =>
      exact (reapExpiredLocks_simulates htimes h.stores h.rows h.wellFormed hfair).reply _

/-! ### The invariants of the memory backend -/

theorem replying_snd {α σ : Type} (f : α → Reply) (r : Outcome α × σ) : (replying f r).2 = r.2 := by
  obtain ⟨outcome, s⟩ := r
  cases outcome <;> rfl

/-- A call that answers has returned. -/
theorem finish_of_replying {α : Type} {f : α → Reply} {r : Outcome α × InnerState} (h : (replying f r).1 ≠ .panic) :
    (MemOp.apply.finish r).1 = true := by
  obtain ⟨outcome, s⟩ := r
  cases outcome with
  | ok a => rfl
  | err message => rfl
  | panic => exact absurd rfl h

theorem memory_apply (request : Request) (h : (request.memory s).1 ≠ .panic) :
    request.memOp.apply s = (true, (request.memory s).2) := by
  cases request <;>
    exact Prod.ext (finish_of_replying h) (by
      simp only [Request.memory, Request.memOp, MemOp.apply, MemOp.finish_snd, replying_snd,
        Memory.leaseJobsBatch])

theorem memOp_admissible (request : Request) (h : request.Fair s) : request.memOp.Admissible s := by
  cases request with
  | enqueue now newId order job => exact ⟨h.1, h.2.1⟩
  | leaseJobsBatch now queue workerId leaseSeconds batchSize => trivial
  | startAttempt now jobId attemptId workerId =>
      refine ⟨List.nodup_singleton _, fun r hr => ?_⟩
      rw [List.mem_singleton.mp hr]
      exact h.1
  | extendLease now jobId workerId leaseSeconds => trivial
  | markSucceeded now newId jobId attemptId workerId latencyMs => exact h.1
  | rescheduleForRetry now jobId attemptId workerId latencyMs nextRunAt errorCode errorMessage => trivial
  | markDlq now jobId attemptId workerId latencyMs reasonCode errorCode errorMessage => trivial
  | cancelJob now attemptOrder jobId workerId => exact h
  | reapExpiredLocks now order => exact h

theorem memOp_keeps_history (request : Request) (archiveOrder attemptOrder : List Uuid) (cutoff : DateTime)
    (limit : Int) : request.memOp ≠ .deleteHistory archiveOrder attemptOrder cutoff limit := by
  cases request <;> exact fun h => by cases h

/-! ### The rows of SQLite -/

theorem request_rowsOk (h : RowsOk texts db) (request : Request) (hfair : request.Fair s)
    (hpayload : request.KeepsPayload texts) : RowsOk texts (request.sqlite texts db).2 := by
  cases request with
  | enqueue now newId order job =>
      rw [Request.sqlite, replying_snd]
      exact enqueueInTx_rowsOk h newId hfair.2.2 hpayload
  | leaseJobsBatch now queue workerId leaseSeconds batchSize =>
      rw [Request.sqlite, replying_snd]
      exact leaseJobsBatch_rowsOk h queue workerId leaseSeconds batchSize
  | startAttempt now jobId attemptId workerId =>
      rw [Request.sqlite, replying_snd]
      exact startAttemptsBatch_rowsOk h _ workerId
  | extendLease now jobId workerId leaseSeconds =>
      rw [Request.sqlite, replying_snd]
      exact extendLease_rowsOk h jobId workerId leaseSeconds
  | markSucceeded now newId jobId attemptId workerId latencyMs =>
      rw [Request.sqlite, replying_snd]
      exact markSucceeded_rowsOk h newId jobId attemptId workerId latencyMs
  | rescheduleForRetry now jobId attemptId workerId latencyMs nextRunAt errorCode errorMessage =>
      rw [Request.sqlite, replying_snd]
      exact failWith_rowsOk h jobId attemptId workerId latencyMs errorCode errorMessage _ fun r hr => hr.congr rfl rfl rfl
  | markDlq now jobId attemptId workerId latencyMs reasonCode errorCode errorMessage =>
      rw [Request.sqlite, replying_snd]
      exact failWith_rowsOk h jobId attemptId workerId latencyMs errorCode errorMessage _ fun r hr => hr.congr rfl rfl rfl
  | cancelJob now attemptOrder jobId workerId =>
      rw [Request.sqlite, replying_snd]
      exact cancelJob_rowsOk h jobId workerId
  | reapExpiredLocks now order =>
      rw [Request.sqlite, replying_snd]
      exact reapExpiredLocks_rowsOk h

/-- **The step lemma.** A fair request gets the same answer from both machines, and leaves them related. -/
theorem simulation_step (htimes : texts.CompareAsTime) (h : Simulation texts db s) (request : Request)
    (hfair : request.Fair s ∧ request.KeepsPayload texts) :
    Agree (request.sqlite texts db).1 (request.memory s).1 ∧
      Simulation texts (request.sqlite texts db).2 (request.memory s).2 := by
  obtain ⟨hfair, hpayload⟩ := hfair
  obtain ⟨hanswer, hstores⟩ := request_simulates htimes h request hfair
  have happly := memory_apply request hanswer.returns
  have hadm := memOp_admissible request hfair
  have hwf := MemOp.apply_wellFormed h.wellFormed request.memOp hadm (by rw [happly])
  have hnum := Memory.apply_numbered h.stores.keyed h.numbered request.memOp hadm (by rw [happly])
    (memOp_keeps_history request)
  rw [happly] at hwf hnum
  exact ⟨hanswer, hstores, request_rowsOk h.rows request hfair hpayload, hwf, hnum⟩

/-- What `get_job` reads in every row is the row. -/
def ReadsBack (texts : Texts) (db : Db) : Prop := ∀ r ∈ db.jobs.rows, texts.readRow r = .ok r

theorem RowsOk.readsBack (h : RowsOk texts db) : ReadsBack texts db := fun r hr => readRow_of_keeps (h.jobs r hr).payload

/-- **SQLite simulates the memory backend.** The texts of timestamps compare as time, and two backends without jobs are
    given the same requests, each fair where it is made and with a payload that comes back. Then every call gets the
    same value from both, or an error from both, and after every call the two stores hold the same jobs, in all their
    fields and as they are read back, and the same attempts. -/
theorem sqlite_simulates_memory (htimes : texts.CompareAsTime) (requests : List Request)
    (h : Meets Request.memory Request.Fair requests .init) (hpayloads : ∀ r ∈ requests, r.KeepsPayload texts) :
    List.Forall₂ (fun a b => Agree b.1 a.1 ∧ SameStores b.2 a.2 ∧ ReadsBack texts b.2)
      (trace Request.memory requests .init) (trace (Request.sqlite texts) requests .empty) := by
  have hboth : Meets Request.memory (fun r s => r.Fair s ∧ r.KeepsPayload texts) requests .init := h.and hpayloads
  have hrun := trace_lockstep (R := fun s db => Simulation texts db s) (A := fun a b => Agree b a)
    (fun request s db hsim hfair => simulation_step htimes hsim request hfair) requests Simulation.start hboth
  exact hrun.imp fun a b hboth => ⟨hboth.1, hboth.2.stores, hboth.2.rows.readsBack⟩

/-- A report that is written every minute. -/
def minuteReport : NewJob := { Memory.welcomeEmail with recurringIntervalSeconds := some 60 }

/-- It is enqueued, leased and completed. -/
def reportRun : List Request :=
  [.enqueue 0 7 [] minuteReport, .leaseJobsBatch 5 "emails" "w1" 30 10, .startAttempt 6 7 9 "w1",
    .markSucceeded 8 11 7 9 "w1" 2]

/-- Both backends accept the completion. -/
theorem sqlite_simulates_memory_report :
    ((trace (Request.sqlite .plain) reportRun .empty).map (·.1)).getLast? = some (.ok .done) ∧
    List.Forall₂ (fun a b => Agree b.1 a.1 ∧ SameStores b.2 a.2 ∧ ReadsBack .plain b.2)
      (trace Request.memory reportRun .init) (trace (Request.sqlite .plain) reportRun .empty) := by
  refine ⟨by decide, sqlite_simulates_memory Texts.plain_compareAsTime reportRun ⟨?_, ?_, ?_, ?_, trivial⟩ ?_⟩
  · refine ⟨⟨rfl, rfl⟩, Memory.enumerates_nil, fun interval h => ?_⟩
    cases h
    decide
  · exact ⟨by decide, fun _ => by decide⟩
  · exact ⟨rfl, by decide⟩
  · exact ⟨⟨by decide, by decide⟩, (Memory.recurringJob_isSome 8 11).mp (by decide)⟩
  · simp [reportRun, Request.KeepsPayload, Texts.plain_keeps]

end Azums.Sqlite
