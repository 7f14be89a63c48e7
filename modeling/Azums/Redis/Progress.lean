import Azums.Lib.Reached
import Azums.Redis.Fencing
import Azums.Redis.Places

/-!
# `Redis.Progress` — how many jobs a lease hands out

The loop of `lease_jobs_batch` pops the head of the queue's list. A job that is not due goes back to the head, where the
next round pops it again: one such job uses up what is left of the batch, and whatever stands behind it waits. A dead or
repeated entry uses up a round as well. `progress_iff` says for which lists a lease with nobody else at the server still
hands out as many runnable jobs as the batch and the list allow.
-/

namespace Azums.Redis

variable {s : Store} {now : DateTime} {queue workerId : String} {id : Uuid}

/-- The job of this id is not due yet. -/
def ahead (now : DateTime) (s : Store) (id : Uuid) : Bool := (s.jobs id).any (fun job => decide (now < job.runAt))

/-- The deadline of the job has passed. -/
def missed (now : DateTime) (job : Job) : Bool := job.deadlineAt.any (fun deadline => decide (deadline < now))

/-- An entry that the loop hands out if it gets to it and its job is due. -/
def handsOut (now : DateTime) (s : Store) (id : Uuid) : Bool := (s.jobs id).any (fun job => !missed now job)

/-- The job of this id is queued, due, and its deadline has not passed. -/
def runnable (now : DateTime) (s : Store) (id : Uuid) : Bool :=
  (s.jobs id).any (fun job => job.status == "queued" && decide (job.runAt ≤ now) && !missed now job)

/-- The entries that a batch of `n` rounds gets past: those before the first job that is not due. -/
def popped (now : DateTime) (s : Store) (queue : String) (n : Nat) : List Uuid :=
  ((s.list (queueKey queue)).takeWhile (fun id => !ahead now s id)).take n

/-- How many runnable jobs the ids are of. -/
def runnables (now : DateTime) (s : Store) (ids : List Uuid) : Nat := (ids.filter (runnable now s)).dedup.length

/-! ## The list under a key -/

/-- `LMOVE` takes the head. -/
theorem list_lmove {key destination : String} (hne : destination ≠ key) (h : (s.list key).head? = some id) :
    Store.list { s with entries := s.entries.erase (key, id) ++ [(destination, id)] } key = (s.list key).tail := by
  have hkey : ((destination, id).1 == key) = false := beq_false_of_ne hne
  simp only [Store.list] at h ⊢
  rw [List.filter_append, ← List.erase_filter, List.filter_cons_of_neg (by simp [hkey]), List.filter_nil,
    List.append_nil, ← List.map_tail]
  cases hf : s.entries.filter (fun e => e.1 == key) with
  | nil => simp [hf] at h
  | cons e rest =>
      rw [hf, List.map_cons, List.head?_cons, Option.some.injEq] at h
      have he : e.1 = key := by
        have hmem : e ∈ s.entries.filter (fun e => e.1 == key) := hf ▸ List.mem_cons_self
        simpa using (List.mem_filter.mp hmem).2
      have hpair : e = (key, id) := Prod.ext he h
      rw [hpair, List.erase_cons_head, List.tail_cons]

/-- `LREM` from another list. -/
theorem list_lrem {key destination : String} (hne : destination ≠ key) (entries : List (String × Uuid)) :
    Store.list { s with entries := entries.erase (destination, id) } key =
      Store.list { s with entries := entries } key := by
  have hnot : (destination, id) ∉ entries.filter (fun e => e.1 == key) := by
    intro hmem
    exact hne (by simpa using (List.mem_filter.mp hmem).2)
  simp only [Store.list]
  rw [← List.erase_filter, List.erase_of_not_mem hnot]

/-- `LPUSH`. -/
theorem list_lpush {key : String} (entries : List (String × Uuid)) :
    Store.list { s with entries := (key, id) :: entries } key = id :: Store.list { s with entries := entries } key := by
  simp [Store.list]

theorem processingKey_ne_queueKey (queue workerId q : String) : processingKey queue workerId ≠ queueKey q := by
  intro h
  have hproc := isProcessing_processingKey queue workerId
  rw [h, isProcessing_queueKey] at hproc
  cases hproc

/-! ## The loop -/

/-- The store after the loop has popped an entry. -/
def taken (queue workerId : String) (id : Uuid) (s : Store) : Store :=
  { s with entries := s.entries.erase (queueKey queue, id) ++ [(processingKey queue workerId, id)] }

/-- The store after an entry that is not due has been put back. -/
def putBack (queue workerId : String) (id : Uuid) (s : Store) : Store :=
  { s with entries := ((queueKey queue, id) :: s.entries).erase (processingKey queue workerId, id) }

/-- One round of the loop, with nobody else at the server. -/
theorem leaseEach_succ_alone (lockExpiresAt : DateTime) (n : Nat) (leased : List Job) (s : Store) :
    (leaseEach queue workerId now lockExpiresAt (n + 1) leased).alone Command.exec s =
      match (s.list (queueKey queue)).head? with
      | none => (.ok (.jobs leased), s)
      | some id =>
          let t := taken queue workerId id s
          match s.jobs id with
          | none => (leaseEach queue workerId now lockExpiresAt n leased).alone Command.exec t
          | some job =>
              if now < job.runAt then
                (leaseEach queue workerId now lockExpiresAt n leased).alone Command.exec (putBack queue workerId id t)
              else if missed now job then
                (leaseEach queue workerId now lockExpiresAt n leased).alone Command.exec
                  ((Command.lrem (processingKey queue workerId) id).exec
                    ((Command.hset id (missedJob now job)).exec t).2).2
              else
                (leaseEach queue workerId now lockExpiresAt n
                  (leased ++ [leasedJob now lockExpiresAt workerId job])).alone Command.exec
                    ((Command.hset id (leasedJob now lockExpiresAt workerId job)).exec t).2 := by
  cases hhead : (s.list (queueKey queue)).head? with
  | none => simp [leaseEach, lmove, Prog.alone, Command.exec, hhead]
  | some id =>
      cases hjob : s.jobs id with
      | none => simp [leaseEach, lmove, hget, Prog.alone, Command.exec, hhead, hjob, taken]
      | some job =>
          simp only [leaseEach, lmove, hget, Prog.call_bind, Prog.done_bind, Prog.alone, Command.exec, hhead, hjob]
          by_cases hahead : now < job.runAt
          · rw [if_pos hahead, if_pos hahead]
            rfl
          · rw [if_neg hahead, if_neg hahead]
            by_cases hmissed : job.deadlineAt.any (fun deadline => decide (deadline < now)) = true
            · rw [if_pos hmissed, if_pos (show missed now job = true from hmissed)]
              rfl
            · rw [if_neg hmissed, if_neg (show ¬missed now job = true from hmissed)]
              rfl

/-- The records agree in the fields that the loop decides by. -/
def SameSchedule (s t : Store) : Prop :=
  ∀ id, (t.jobs id).map (fun job => (job.id, job.runAt, job.deadlineAt)) =
    (s.jobs id).map (fun job => (job.id, job.runAt, job.deadlineAt))

namespace SameSchedule

variable {t : Store}

theorem of_jobs (h : t.jobs = s.jobs) : SameSchedule s t := fun id => by rw [h]

/-- A record written over by one with the same fields. -/
theorem of_write {job : Job} (job' : Job) (hjob : s.jobs id = some job)
    (hsame : (job'.id, job'.runAt, job'.deadlineAt) = (job.id, job.runAt, job.deadlineAt))
    (ht : t.jobs = Function.update s.jobs id (some job')) : SameSchedule s t := by
  intro i
  rw [ht]
  by_cases hi : i = id
  · rw [hi, Function.update_self, hjob, Option.map_some, Option.map_some, hsame]
  · rw [Function.update_of_ne hi]

theorem ahead_eq (h : SameSchedule s t) : ahead now t = ahead now s := by
  funext id
  have hid := h id
  unfold ahead
  cases hs : s.jobs id <;> cases ht : t.jobs id <;> simp_all

theorem handsOut_eq (h : SameSchedule s t) : handsOut now t = handsOut now s := by
  funext id
  have hid := h id
  unfold handsOut missed
  cases hs : s.jobs id <;> cases ht : t.jobs id <;> simp_all

theorem keyed (h : SameSchedule s t) (hk : Keyed s) : Keyed t := by
  intro id job hjob
  have hid := h id
  rw [hjob, Option.map_some] at hid
  obtain ⟨job₀, hjob₀, heq⟩ := Option.map_eq_some_iff.mp hid.symm
  exact (congrArg Prod.fst heq).symm.trans (hk id job₀ hjob₀)

end SameSchedule

/-- An entry whose job is not ahead is popped, and the loop goes on with the rest. -/
theorem popped_cons {rest : List Uuid} (hlist : s.list (queueKey queue) = id :: rest) (h : ahead now s id = false)
    (n : Nat) : popped now s queue (n + 1) = id :: (rest.takeWhile (fun id => !ahead now s id)).take n := by
  rw [popped, hlist, List.takeWhile_cons_of_pos (by simp [h]), List.take_succ_cons]

/-- A job that is ahead holds back the whole list. -/
theorem popped_blocked {rest : List Uuid} (hlist : s.list (queueKey queue) = id :: rest) (h : ahead now s id = true)
    (n : Nat) : popped now s queue n = [] := by
  rw [popped, hlist, List.takeWhile_cons_of_neg (by simp [h]), List.take_nil]

/-- The entries popped later, from a store with the same schedule and the rest of the list. -/
theorem popped_rest {t : Store} {rest : List Uuid} (h : SameSchedule s t) (hlist : t.list (queueKey queue) = rest)
    (n : Nat) : (popped now t queue n).filter (handsOut now t) =
      ((rest.takeWhile (fun id => !ahead now s id)).take n).filter (handsOut now s) := by
  rw [popped, hlist, h.ahead_eq, h.handsOut_eq]

/-- The loop hands out the popped entries that it finds a job for, but those past their deadline. -/
theorem leaseEach_handsOut (lockExpiresAt : DateTime) (n : Nat) :
    ∀ (leased : List Job) (s : Store), Keyed s → ∃ more s',
      (leaseEach queue workerId now lockExpiresAt n leased).alone Command.exec s = (.ok (.jobs (leased ++ more)), s') ∧
        more.map (·.id) = (popped now s queue n).filter (handsOut now s) := by
  induction n with
  | zero => intro leased s _; exact ⟨[], s, by simp [leaseEach, Prog.alone], by simp [popped]⟩
  | succ n ih =>
      intro leased s hk
      rw [leaseEach_succ_alone]
      cases hlist : s.list (queueKey queue) with
      | nil => exact ⟨[], s, by simp, by simp [popped, hlist]⟩
      | cons id rest =>
          have hrest : (taken queue workerId id s).list (queueKey queue) = rest := by
            rw [taken, list_lmove (processingKey_ne_queueKey _ _ _) (by rw [hlist]; rfl), hlist, List.tail_cons]
          cases hjob : s.jobs id with
          | none =>
              simp only [List.head?_cons, hjob]
              -- no record: the entry stays behind in the processing list
              have hsame : SameSchedule s (taken queue workerId id s) := .of_jobs rfl
              obtain ⟨more, s', hrun, hmore⟩ := ih leased _ (hsame.keyed hk)
              refine ⟨more, s', hrun, ?_⟩
              rw [hmore, popped_rest hsame hrest, popped_cons hlist (by simp [ahead, hjob]),
                List.filter_cons_of_neg (by simp [handsOut, hjob])]
          | some job =>
              simp only [List.head?_cons, hjob]
              by_cases hahead : now < job.runAt
              · -- not due: the list is as before, so the rest of the loop gets nowhere
                have hblocked : ahead now s id = true := by simp [ahead, hjob, hahead]
                have hsame : SameSchedule s (putBack queue workerId id (taken queue workerId id s)) := .of_jobs rfl
                have hback : (putBack queue workerId id (taken queue workerId id s)).list (queueKey queue) =
                    id :: rest := by
                  rw [putBack, list_lrem (processingKey_ne_queueKey _ _ _), list_lpush]
                  exact congrArg (id :: ·) hrest
                obtain ⟨more, s', hrun, hmore⟩ := ih leased _ (hsame.keyed hk)
                refine ⟨more, s', by rw [if_pos hahead]; exact hrun, ?_⟩
                rw [hmore, popped_blocked hback (by rw [hsame.ahead_eq]; exact hblocked), popped_blocked hlist hblocked,
                  List.filter_nil, List.filter_nil]
              · have hdue : ahead now s id = false := by simp [ahead, hjob, hahead]
                by_cases hmissed : missed now job = true
                · -- past its deadline: dead-lettered, and off the list
                  rw [if_neg hahead, if_pos hmissed]
                  generalize ht : ((Command.lrem (processingKey queue workerId) id).exec
                    ((Command.hset id (missedJob now job)).exec (taken queue workerId id s)).2).2 = t
                  have hsame : SameSchedule s t := by
                    rw [← ht]
                    exact .of_write (missedJob now job) hjob rfl rfl
                  have hnext : t.list (queueKey queue) = rest := by
                    rw [← ht, ← hrest]
                    exact list_lrem (processingKey_ne_queueKey _ _ _) _
                  obtain ⟨more, s', hrun, hmore⟩ := ih leased t (hsame.keyed hk)
                  refine ⟨more, s', hrun, ?_⟩
                  rw [hmore, popped_rest hsame hnext, popped_cons hlist hdue,
                    List.filter_cons_of_neg (by simp [handsOut, hjob, hmissed])]
                · -- handed out
                  rw [if_neg hahead, if_neg hmissed]
                  generalize ht : ((Command.hset id (leasedJob now lockExpiresAt workerId job)).exec
                    (taken queue workerId id s)).2 = t
                  have hsame : SameSchedule s t := by
                    rw [← ht]
                    exact .of_write (leasedJob now lockExpiresAt workerId job) hjob rfl rfl
                  have hnext : t.list (queueKey queue) = rest := by
                    rw [← ht, ← hrest]
                    rfl
                  obtain ⟨more, s', hrun, hmore⟩ := ih (leased ++ [leasedJob now lockExpiresAt workerId job]) t
                    (hsame.keyed hk)
                  refine ⟨leasedJob now lockExpiresAt workerId job :: more, s', ?_, ?_⟩
                  · rw [hrun, List.append_assoc, List.singleton_append]
                  · have hid : (leasedJob now lockExpiresAt workerId job).id = id := hk id job hjob
                    rw [List.map_cons, hid, hmore, popped_rest hsame hnext, popped_cons hlist hdue,
                      List.filter_cons_of_pos (by simp [handsOut, hjob, hmissed])]

/-! ## The lease -/

/-- The lease hands out at least one job, and as many runnable ones as the list has, up to the batch. -/
def MakesProgress (now : DateTime) (s : Store) (queue : String) (batchSize : Int) (result : Outcome Answer) : Prop :=
  ∃ leased, result = .ok (.jobs leased) ∧ leased ≠ [] ∧ runnables now s (leased.map (·.id)) =
    min (min batchSize 100).toNat (runnables now s (s.list (queueKey queue)))

/-- The first entries of the list, as many as the batch, are of distinct runnable jobs. -/
def FrontRunnable (now : DateTime) (s : Store) (queue : String) (n : Nat) : Prop :=
  n ≤ (s.list (queueKey queue)).length ∧ ((s.list (queueKey queue)).take n).Nodup ∧
    ∀ id ∈ (s.list (queueKey queue)).take n, runnable now s id = true

/-- A runnable job is not ahead, and it is handed out. -/
theorem runnable_spec (h : runnable now s id = true) : ahead now s id = false ∧ handsOut now s id = true := by
  obtain ⟨job, hjob, hrun⟩ := (Option.any_eq_true _ _).mp h
  simp only [Bool.and_eq_true, decide_eq_true_eq] at hrun
  exact ⟨by simp [ahead, hjob, hrun.1.2], by simpa [handsOut, hjob] using hrun.2⟩

theorem runnables_eq (ids : List Uuid) : runnables now s ids = (wanted (runnable now s) ids).card :=
  (wanted_card _ _).symm

/-- Only popped entries that are handed out count. -/
theorem runnables_handsOut (ids : List Uuid) :
    runnables now s (ids.filter (handsOut now s)) = runnables now s ids := by
  rw [runnables, List.filter_filter]
  refine congrArg (fun l => (List.dedup l).length) (List.filter_congr fun id _ => ?_)
  cases hrun : runnable now s id with
  | true => simp [(runnable_spec hrun).2]
  | false => simp

/-- A list with a runnable job counts it. -/
theorem runnables_pos {ids : List Uuid} (h : ∃ id ∈ ids, runnable now s id = true) : 0 < runnables now s ids := by
  obtain ⟨id, hmem, hrun⟩ := h
  rw [runnables_eq, Finset.card_pos]
  exact ⟨id, mem_wanted.mpr ⟨hmem, hrun⟩⟩

/-- **Progress of a lease.** With nobody else at the server, in every store that keeps each record under its own id: a
    lease of a queue whose list has a runnable job hands out as many of them as the list has, up to the batch and to a
    hundred, if and only if the end of the lease can be represented and either the front of the list is made of
    distinct runnable jobs or no runnable job stands behind the batch or behind a job that is not due. -/
theorem progress_iff (hk : Keyed s) {batchSize : Int} (hbatch : 1 ≤ batchSize)
    (hsome : ∃ id ∈ s.list (queueKey queue), runnable now s id = true) (workerId : String) (leaseSeconds : Int) :
    MakesProgress now s queue batchSize
        ((leaseJobsBatch now queue workerId leaseSeconds batchSize).alone Command.exec s).1 ↔
      (Chrono.addSeconds now leaseSeconds).isSome ∧ (FrontRunnable now s queue (min batchSize 100).toNat ∨
        ∀ id ∈ s.list (queueKey queue), runnable now s id = true →
          id ∈ popped now s queue (min batchSize 100).toNat) := by
  have hrounds : (min (max batchSize 1) 100).toNat = (min batchSize 100).toNat := by omega
  unfold leaseJobsBatch
  rw [hrounds]
  generalize hn : (min batchSize 100).toNat = n
  cases Chrono.addSeconds now leaseSeconds with
  | none =>
      simp only [Prog.pure_eq, Prog.alone, MakesProgress, Option.isSome_none, Bool.false_eq_true, false_and, iff_false]
      rintro ⟨leased, hok, _⟩
      cases hok
  | some lockExpiresAt =>
      obtain ⟨leased, s', hrun, hids⟩ := leaseEach_handsOut lockExpiresAt n [] s hk
      have hok : ((leaseEach queue workerId now lockExpiresAt n []).alone Command.exec s).1 = .ok (.jobs leased) := by
        rw [hrun, List.nil_append]
      simp only [Option.isSome_some, true_and]
      have hcount : runnables now s (leased.map (·.id)) = runnables now s (popped now s queue n) := by
        rw [hids, runnables_handsOut]
      have hp : ∀ id, runnable now s id = true → (!ahead now s id) = true := fun id h => by simp [(runnable_spec h).1]
      rw [FrontRunnable, popped, ← reached_count_iff hp, ← runnables_eq, ← runnables_eq, ← popped, ← hcount]
      constructor
      · rintro ⟨leased', hok', _, heq⟩
        rw [hok] at hok'
        cases hok'
        rwa [hn] at heq
      · intro heq
        refine ⟨leased, hok, ?_, by rw [hn]; exact heq⟩
        -- the batch and the list both allow one
        rintro rfl
        have hpos := runnables_pos hsome
        simp only [runnables, List.map_nil, List.filter_nil, List.dedup_nil, List.length_nil] at heq
        rw [runnables] at hpos
        omega

/-- A server with one email that is due and, before it in the list, one that is due only at 100. -/
def oneAhead : Store :=
  ((enqueue 2 1 email).alone Command.exec ((enqueue 1 0 { email with runAt := 100 }).alone Command.exec .empty).2).2

/-- A server whose first email is due. -/
def oneBehind : Store :=
  ((enqueue 2 1 { email with runAt := 100 }).alone Command.exec ((enqueue 1 0 email).alone Command.exec .empty).2).2

theorem oneBehind_keyed : Keyed oneBehind := by
  intro id job hjob
  have hjobs : oneBehind.jobs = Function.update (Function.update (fun _ => none) 1 (some (jobEntity 0 1 email))) 2
      (some (jobEntity 1 2 { email with runAt := 100 })) := rfl
  rw [hjobs] at hjob
  by_cases h2 : id = 2
  · subst h2
    rw [Function.update_self] at hjob
    cases hjob
    rfl
  · rw [Function.update_of_ne h2] at hjob
    by_cases h1 : id = 1
    · subst h1
      rw [Function.update_self] at hjob
      cases hjob
      rfl
    · rw [Function.update_of_ne h1] at hjob
      cases hjob

/-- The email that is due stands first: a batch of two hands it out. -/
theorem progress_iff_first :
    MakesProgress 5 oneBehind "emails" 2 ((leaseJobsBatch 5 "emails" "w1" 30 2).alone Command.exec oneBehind).1 :=
  (progress_iff oneBehind_keyed (by decide) ⟨1, by decide, by decide⟩ "w1" 30).mpr ⟨by decide, Or.inr (by decide)⟩

/-- The email that is not due stands first: a batch of one, or of a hundred, hands out nothing. -/
theorem future_job_blocks : runnable 5 oneAhead 2 = true ∧ 2 ∈ oneAhead.list (queueKey "emails") ∧
    ((leaseJobsBatch 5 "emails" "w1" 30 1).alone Command.exec oneAhead).1 = .ok (.jobs []) ∧
    ¬MakesProgress 5 oneAhead "emails" 1 ((leaseJobsBatch 5 "emails" "w1" 30 1).alone Command.exec oneAhead).1 := by
  have hnone : ((leaseJobsBatch 5 "emails" "w1" 30 1).alone Command.exec oneAhead).1 = .ok (.jobs []) := rfl
  refine ⟨by decide, by decide, hnone, ?_⟩
  rw [hnone]
  rintro ⟨leased, hok, hne, _⟩
  cases hok
  exact hne rfl

end Azums.Redis
