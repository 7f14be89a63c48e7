import Azums.Memory.Calls
import Mathlib.Data.Int.Interval
import Mathlib.Data.Set.Card

/-!
# `Memory.Numbering` — the attempts of a job are counted

`start_attempts_batch` numbers attempts with `attempt_counts`, a counter beside the attempts. `Numbered` ties the two:
the attempts of a job carry the numbers from 1 to the job's counter, each number once. Every call keeps this but
`delete_history_for_succeeded_older_than`, which removes attempts and leaves the counter.
-/

namespace Azums.Memory

open Function (update)

variable {s s' : InnerState} {now : DateTime}

/-- The counter of a job. -/
def attemptCount (s : InnerState) (jobId : Uuid) : Int := (s.attemptCounts jobId).getD 0

/-- The attempts of a job. -/
def attemptsOf (s : InnerState) (jobId : Uuid) : Set Uuid := {a | ∃ att, s.attempts a = some att ∧ att.jobId = jobId}

/-- Attempts of a job that carry the numbers from 1 to `count`, each number once, are `count` many. -/
theorem encard_of_numbers {jobId : Uuid} {count : Int}
    (bounds : ∀ a att, s.attempts a = some att → att.jobId = jobId → 1 ≤ att.attemptNo ∧ att.attemptNo ≤ count)
    (unique : ∀ a b att att', s.attempts a = some att → s.attempts b = some att' → att.jobId = jobId →
      att'.jobId = jobId → att.attemptNo = att'.attemptNo → a = b)
    (each : ∀ n, 1 ≤ n → n ≤ count → ∃ a att, s.attempts a = some att ∧ att.jobId = jobId ∧ att.attemptNo = n) :
    (attemptsOf s jobId).encard = count.toNat := by
  have himage : (fun a => ((s.attempts a).map (·.attemptNo)).getD 0) '' attemptsOf s jobId = Set.Icc 1 count := by
    ext n
    constructor
    · rintro ⟨a, ⟨att, hatt, hj⟩, rfl⟩
      simp only [hatt, Option.map_some, Option.getD_some]
      exact bounds a att hatt hj
    · rintro ⟨h1, hn⟩
      obtain ⟨a, att, hatt, hj, hno⟩ := each n h1 hn
      exact ⟨a, ⟨att, hatt, hj⟩, by simp only [hatt, Option.map_some, Option.getD_some, hno]⟩
  have hinj : Set.InjOn (fun a => ((s.attempts a).map (·.attemptNo)).getD 0) (attemptsOf s jobId) := by
    rintro a ⟨att, hatt, hj⟩ b ⟨att', hatt', hj'⟩ hno
    simp only [hatt, hatt', Option.map_some, Option.getD_some] at hno
    exact unique a b att att' hatt hatt' hj hj' hno
  rw [← hinj.encard_image, himage, ← Finset.coe_Icc, Set.encard_coe_eq_coe_finsetCard, Int.card_Icc]
  congr 2
  omega

/-- The attempts of every job are numbered from 1 to its counter. -/
structure Numbered (s : InnerState) : Prop where
  counter : ∀ jobId, 0 ≤ attemptCount s jobId
  bounds : ∀ a att, s.attempts a = some att → 1 ≤ att.attemptNo ∧ att.attemptNo ≤ attemptCount s att.jobId
  unique : ∀ a b att att', s.attempts a = some att → s.attempts b = some att' → att.jobId = att'.jobId →
    att.attemptNo = att'.attemptNo → a = b
  each : ∀ jobId n, 1 ≤ n → n ≤ attemptCount s jobId →
    ∃ a att, s.attempts a = some att ∧ att.jobId = jobId ∧ att.attemptNo = n

namespace Numbered

theorem init : Numbered InnerState.init where
  counter := fun _ => le_refl 0
  bounds := by intro a att h; cases h
  unique := by intro a b att att' h; cases h
  each := by
    intro jobId n h1 h0
    have hzero : attemptCount InnerState.init jobId = 0 := rfl
    omega

/-- The attempts of a job are as many as its counter says. -/
theorem encard_attemptsOf (h : Numbered s) (jobId : Uuid) :
    (attemptsOf s jobId).encard = (attemptCount s jobId).toNat := by
  refine encard_of_numbers (fun a att hatt hj => ?_) (fun a b att att' hatt hatt' hj hj' => ?_) (h.each jobId)
  · rw [← hj]
    exact h.bounds a att hatt
  · exact h.unique a b att att' hatt hatt' (hj.trans hj'.symm)

end Numbered

/-! ## What keeps the numbers -/

/-- No attempt is added or removed, and none changes its job or its number. -/
structure SameNumbers (s s' : InnerState) : Prop where
  attemptCounts : s'.attemptCounts = s.attemptCounts
  attempts : ∀ a, (s'.attempts a).map (fun att => (att.jobId, att.attemptNo)) =
    (s.attempts a).map (fun att => (att.jobId, att.attemptNo))

namespace SameNumbers

theorem count (h : SameNumbers s s') (jobId : Uuid) : attemptCount s' jobId = attemptCount s jobId := by
  rw [attemptCount, attemptCount, h.attemptCounts]

theorem before (h : SameNumbers s s') {a : Uuid} {att' : MemoryAttempt} (hatt : s'.attempts a = some att') :
    ∃ att, s.attempts a = some att ∧ att.jobId = att'.jobId ∧ att.attemptNo = att'.attemptNo := by
  have hsame := h.attempts a
  rw [hatt, Option.map_some, eq_comm, Option.map_eq_some_iff] at hsame
  obtain ⟨att, hbefore, heq⟩ := hsame
  exact ⟨att, hbefore, congrArg Prod.fst heq, congrArg Prod.snd heq⟩

theorem after (h : SameNumbers s s') {a : Uuid} {att : MemoryAttempt} (hatt : s.attempts a = some att) :
    ∃ att', s'.attempts a = some att' ∧ att'.jobId = att.jobId ∧ att'.attemptNo = att.attemptNo := by
  have hsame := h.attempts a
  rw [hatt, Option.map_some, Option.map_eq_some_iff] at hsame
  obtain ⟨att', hafter, heq⟩ := hsame
  exact ⟨att', hafter, congrArg Prod.fst heq, congrArg Prod.snd heq⟩

end SameNumbers

theorem Numbered.same (h : Numbered s) (hs : SameNumbers s s') : Numbered s' where
  counter := fun jobId => hs.count jobId ▸ h.counter jobId
  bounds := by
    intro a att' hatt'
    obtain ⟨att, hatt, hj, hno⟩ := hs.before hatt'
    rw [hs.count, ← hj, ← hno]
    exact h.bounds a att hatt
  unique := by
    intro a b att' att₂' hatt' hatt₂' hj hno
    obtain ⟨att, hatt, hj₁, hno₁⟩ := hs.before hatt'
    obtain ⟨att₂, hatt₂, hj₂, hno₂⟩ := hs.before hatt₂'
    exact h.unique a b att att₂ hatt hatt₂ (hj₁.trans (hj.trans hj₂.symm)) (hno₁.trans (hno.trans hno₂.symm))
  each := by
    intro jobId n h1 hn
    rw [hs.count] at hn
    obtain ⟨a, att, hatt, hj, hno⟩ := h.each jobId n h1 hn
    obtain ⟨att', hatt', hj', hno'⟩ := hs.after hatt
    exact ⟨a, att', hatt', hj'.trans hj, hno'.trans hno⟩

/-! ### The calls that start no attempt -/

theorem SameNumbers.of_eq (hcounts : s'.attemptCounts = s.attemptCounts) (hattempts : s'.attempts = s.attempts) :
    SameNumbers s s' :=
  ⟨hcounts, fun a => by rw [hattempts]⟩

theorem SameNumbers.trans {s'' : InnerState} (h : SameNumbers s s') (h' : SameNumbers s' s'') : SameNumbers s s'' :=
  ⟨h'.attemptCounts.trans h.attemptCounts, fun a => (h'.attempts a).trans (h.attempts a)⟩

/-- Closing one attempt. -/
theorem SameNumbers.of_close {a : Uuid} {att att' : MemoryAttempt} (hatt : s.attempts a = some att)
    (hclose : Closes att att') (hcounts : s'.attemptCounts = s.attemptCounts)
    (hattempts : s'.attempts = update s.attempts a (some att')) : SameNumbers s s' := by
  refine ⟨hcounts, fun b => ?_⟩
  rw [hattempts]
  by_cases hb : b = a
  · subst hb
    rw [Function.update_self, hatt, Option.map_some, Option.map_some, hclose.jobId, hclose.attemptNo]
  · rw [Function.update_of_ne hb]

theorem Accepted.sameNumbers {jobId attemptId : Uuid} {workerId : String} {close : MemoryAttempt → MemoryAttempt}
    (h : Accepted s s' jobId attemptId workerId close)
    (hclose : ∀ att : MemoryAttempt, att.status = "running" → Closes att (close att)) : SameNumbers s s' := by
  obtain ⟨att, hatt, hrun, _, hmap⟩ := h.attempt
  exact .of_close hatt (hclose att hrun) h.attemptCounts hmap

theorem markSucceeded_sameNumbers (s : InnerState) (now : DateTime) (newId jobId attemptId : Uuid) (workerId : String)
    (latencyMs : Int) : SameNumbers s (markSucceeded s now newId jobId attemptId workerId latencyMs).2 := by
  rcases markSucceeded_accepted s now newId jobId attemptId workerId latencyMs with ⟨hsame, _⟩ | ⟨_, hacc⟩
  · rw [hsame]
    exact .of_eq rfl rfl
  · exact hacc.sameNumbers fun att hrun => closes_succeededAttempt hrun _

theorem markSucceededBatch_sameNumbers (workerId : String) (updates : List (DateTime × Uuid × Uuid × Uuid × Int))
    (s : InnerState) : SameNumbers s (markSucceededBatch workerId updates s).2 := by
  obtain ⟨_, hsame⟩ := markSucceededBatch_keeps (I := fun _ t => SameNumbers s t)
    (fun now newId jobId attemptId latencyMs _ t h =>
      h.trans (markSucceeded_sameNumbers t now newId jobId attemptId workerId latencyMs)) updates s (.of_eq rfl rfl)
  exact hsame

theorem reap_sameNumbers (s : InnerState) (now : DateTime) (order : List Uuid) :
    SameNumbers s (reapExpiredLocks s now order).2 := by
  refine ⟨(reap_jobs s now order).2.attemptCounts, fun a => ?_⟩
  rw [reap_attempts, Option.map_map]
  refine Option.map_congr fun att _ => ?_
  rw [Function.comp_apply]
  split <;> rfl

theorem cancelJob_sameNumbers (hk : Keyed s) (attemptOrder : List Uuid) (jobId : Uuid) (workerId : Option String) :
    SameNumbers s (cancelJob s now attemptOrder jobId workerId).2 := by
  rcases cancelJob_ok s now attemptOrder jobId workerId with
    ⟨hsame, _⟩ | ⟨job, _, _, _, _, _, hcounts, hattempts⟩
  · rw [hsame]
    exact .of_eq rfl rfl
  · by_cases hst : job.status = "running"
    · rw [if_pos hst] at hattempts
      cases hlatest : latestRunningAttempt s attemptOrder jobId with
      | none => exact .of_eq hcounts (by simpa only [hlatest] using hattempts)
      | some att =>
          obtain ⟨⟨a, hatt⟩, _, hrun⟩ := latestRunningAttempt_some hlatest
          simp only [hlatest, hk a att hatt] at hattempts
          exact .of_close hatt (closes_failedAttempt hrun _ _ _) hcounts hattempts
    · rw [if_neg hst] at hattempts
      exact .of_eq hcounts hattempts

/-- **A call that starts no attempt and deletes none keeps the numbers.** -/
theorem apply_sameNumbers (hk : Keyed s) (op : MemOp) (hret : (op.apply s).1 = true)
    (hstart : ∀ now requests workerId, op ≠ .startAttempts now requests workerId)
    (hdelete : ∀ archiveOrder attemptOrder cutoff limit, op ≠ .deleteHistory archiveOrder attemptOrder cutoff limit) :
    SameNumbers s (op.apply s).2 := by
  cases op with
  | enqueue now newId order new =>
      have honly := enqueue_onlyJobs s now newId order new
      simp only [MemOp.apply, MemOp.finish_snd]
      exact .of_eq honly.attemptCounts honly.attempts
  | lease now queue workerId leaseSeconds batchSize ordering =>
      obtain ⟨_, _, _, honly⟩ := lease_jobs queue workerId leaseSeconds batchSize ordering (MemOp.finish_fst hret)
      simp only [MemOp.apply, MemOp.finish_snd]
      exact .of_eq honly.attemptCounts honly.attempts
  | reap now order =>
      simp only [MemOp.apply, MemOp.finish_snd]
      exact reap_sameNumbers s now order
  | startAttempts now requests workerId => exact absurd rfl (hstart now requests workerId)
  | markSucceeded now newId jobId attemptId workerId latencyMs =>
      simp only [MemOp.apply, MemOp.finish_snd]
      exact markSucceeded_sameNumbers s now newId jobId attemptId workerId latencyMs
  | markSucceededBatch updates workerId =>
      simp only [MemOp.apply, MemOp.finish_snd]
      exact markSucceededBatch_sameNumbers workerId updates s
  | reschedule now jobId attemptId workerId latencyMs nextRunAt errorCode errorMessage =>
      simp only [MemOp.apply, MemOp.finish_snd]
      -- an acknowledgement closes an attempt under the number that it has
      rcases rescheduleForRetry_accepted s now jobId attemptId workerId latencyMs nextRunAt errorCode
        errorMessage with ⟨hsame, _⟩ | ⟨_, hacc⟩
      · rw [hsame]
        exact .of_eq rfl rfl
      · exact hacc.sameNumbers fun att hrun => closes_failedAttempt hrun _ _ _
  | markDlq now jobId attemptId workerId latencyMs reasonCode errorCode errorMessage =>
      simp only [MemOp.apply, MemOp.finish_snd]
      rcases markDlq_accepted s now jobId attemptId workerId latencyMs reasonCode errorCode errorMessage with
        ⟨hsame, _⟩ | ⟨_, hacc⟩
      · rw [hsame]
        exact .of_eq rfl rfl
      · exact hacc.sameNumbers fun att hrun => closes_failedAttempt hrun _ _ _
  | extendLease now jobId workerId leaseSeconds =>
      have honly := extendLease_onlyJobs s now jobId workerId leaseSeconds
      simp only [MemOp.apply, MemOp.finish_snd]
      exact .of_eq honly.attemptCounts honly.attempts
  | cancel now attemptOrder jobId workerId =>
      simp only [MemOp.apply, MemOp.finish_snd]
      exact cancelJob_sameNumbers hk attemptOrder jobId workerId
  | archive order cutoff limit =>
      simp only [MemOp.apply, MemOp.finish_snd]
      exact .of_eq (archive_foldl_attempts _ s).2 (archive_foldl_attempts _ s).1
  | deleteHistory archiveOrder attemptOrder cutoff limit => exact absurd rfl (hdelete _ _ _ _)
  | replay now newId jobId overrideQueue overrideRunAt =>
      have honly := replayJob_onlyJobs s now newId jobId overrideQueue overrideRunAt
      simp only [MemOp.apply, MemOp.finish_snd]
      exact .of_eq honly.attemptCounts honly.attempts

/-! ### Starting attempts -/

theorem recordAttempt_count (s : InnerState) (now : DateTime) (workerId : String) (jobId attemptId : Uuid) (n : Int)
    (id : Uuid) : attemptCount (recordAttempt s now workerId jobId attemptId n) id =
      if id = jobId then n else attemptCount s id := by
  show (update s.attemptCounts jobId (some n) id).getD 0 = _
  by_cases hid : id = jobId
  · subst hid
    rw [Function.update_self, if_pos rfl, Option.getD_some]
  · rw [Function.update_of_ne hid, if_neg hid]
    rfl

/-- A new attempt takes the next number. -/
theorem Numbered.record (h : Numbered s) {attemptId : Uuid} (hnew : s.attempts attemptId = none) (now : DateTime)
    (workerId : String) (jobId : Uuid) :
    Numbered (recordAttempt s now workerId jobId attemptId (attemptCount s jobId + 1)) := by
  have hcount := recordAttempt_count s now workerId jobId attemptId (attemptCount s jobId + 1)
  -- an attempt afterwards is the new one, or was there before
  have hcases : ∀ a att,
      (recordAttempt s now workerId jobId attemptId (attemptCount s jobId + 1)).attempts a = some att →
      a = attemptId ∧ att.jobId = jobId ∧ att.attemptNo = attemptCount s jobId + 1 ∨
        a ≠ attemptId ∧ s.attempts a = some att := by
    intro a att hatt
    have hatt' : update s.attempts attemptId
        (some (startedAttempt now attemptId jobId (attemptCount s jobId + 1) workerId)) a = some att := hatt
    rcases update_eq_some hatt' with ⟨ha, rfl⟩ | hold
    · exact Or.inl ⟨ha, rfl, rfl⟩
    · exact Or.inr hold
  have hcounter := h.counter jobId
  constructor
  · intro id
    rw [hcount]
    split
    · omega
    · exact h.counter id
  · intro a att hatt
    rw [hcount]
    rcases hcases a att hatt with ⟨_, hj, hno⟩ | ⟨_, hatt⟩
    · rw [if_pos hj, hno]
      omega
    · have hbounds := h.bounds a att hatt
      split
      · rename_i hj
        rw [hj] at hbounds
        omega
      · exact hbounds
  · intro a b att att' hatt hatt' hj hno
    rcases hcases a att hatt with ⟨ha, hja, hna⟩ | ⟨_, hold⟩
    · rcases hcases b att' hatt' with ⟨hb, _, _⟩ | ⟨_, hold'⟩
      · exact ha.trans hb.symm
      · -- the number of the new attempt is beyond those there were
        have hbounds := h.bounds b att' hold'
        rw [← hj, hja] at hbounds
        omega
    · rcases hcases b att' hatt' with ⟨_, hjb, hnb⟩ | ⟨_, hold'⟩
      · have hbounds := h.bounds a att hold
        rw [hj, hjb] at hbounds
        omega
      · exact h.unique a b att att' hold hold' hj hno
  · intro id n h1 hn
    rw [hcount] at hn
    by_cases hlast : id = jobId ∧ n = attemptCount s jobId + 1
    · refine ⟨attemptId, startedAttempt now attemptId jobId (attemptCount s jobId + 1) workerId, ?_, hlast.1.symm,
        hlast.2.symm⟩
      exact Function.update_self ..
    · have hn' : n ≤ attemptCount s id := by
        split at hn
        · rename_i hid
          subst hid
          have hne : n ≠ attemptCount s id + 1 := fun heq => hlast ⟨rfl, heq⟩
          omega
        · exact hn
      obtain ⟨a, att, hatt, hj, hno⟩ := h.each id n h1 hn'
      refine ⟨a, att, ?_, hj, hno⟩
      have hne : a ≠ attemptId := by
        rintro rfl
        rw [hnew] at hatt
        cases hatt
      exact (Function.update_of_ne hne ..).trans hatt

/-- The loop of `start_attempts_batch`, however far it gets. -/
theorem startEach_numbered (now : DateTime) (workerId : String) (requests : List (Uuid × Uuid)) :
    ∀ s : InnerState, Numbered s → (requests.map (·.2)).Nodup → (∀ r ∈ requests, s.attempts r.2 = none) →
      Numbered (startEach now workerId requests s).2 := by
  induction requests with
  | nil => intro s h _ _; exact h
  | cons request rest ih =>
      intro s h hnd hnew
      obtain ⟨jobId, attemptId⟩ := request
      obtain ⟨hnotin, hnd⟩ := List.nodup_cons.mp hnd
      by_cases hl : Startable s workerId jobId
      · rw [startEach_cons now attemptId rest hl, prependAttempt_snd]
        refine ih _ (h.record (hnew _ List.mem_cons_self) now workerId jobId) hnd fun r hr => ?_
        have hne : r.2 ≠ attemptId := fun heq => hnotin (List.mem_map.mpr ⟨r, hr, heq⟩)
        exact (Function.update_of_ne hne ..).trans (hnew r (List.mem_cons_of_mem _ hr))
      · obtain ⟨_, hm, _⟩ := startEach_stops now attemptId rest hl
        rw [hm]
        exact h

/-- An attempt that was added to those there were carries the number the counter has come to. -/
theorem Numbered.attemptNo_of_new (h : Numbered s) (h' : Numbered s')
    (hkept : ∀ a att, s.attempts a = some att → s'.attempts a = some att) {a : Uuid} {att : MemoryAttempt}
    (hnew : s.attempts a = none) (hatt : s'.attempts a = some att)
    (hcount : attemptCount s' att.jobId ≤ attemptCount s att.jobId + 1) : att.attemptNo = attemptCount s' att.jobId := by
  have hbounds := h'.bounds a att hatt
  by_contra hne
  -- a smaller number is taken by an attempt that was there before
  obtain ⟨b, old, hold, hj, hno⟩ := h.each att.jobId att.attemptNo hbounds.1 (by omega)
  obtain rfl := h'.unique b a old att (hkept b old hold) hatt hj hno
  rw [hnew] at hold
  cases hold

/-- What `start_attempts_batch` has done for one job, however far it got. -/
inductive Counted (workerId : String) (s s' : InnerState) (id : Uuid) : Prop where
  | same : attemptCount s' id = attemptCount s id → Counted workerId s s' id
  | started {a : Uuid} {att : MemoryAttempt} : Leased s workerId id →
      attemptCount s' id = attemptCount s id + 1 → s'.attempts a = some att → att.jobId = id →
      att.status = "running" → Counted workerId s s' id

theorem Counted.le {workerId : String} {id : Uuid} (h : Counted workerId s s' id) :
    attemptCount s' id ≤ attemptCount s id + 1 := by
  cases h with
  | same hcount => omega
  | started _ hcount _ _ _ => omega

/-- The loop starts at most one attempt for a job that is requested once, and returns the number it has. -/
theorem startEach_counted (now : DateTime) (workerId : String) (requests : List (Uuid × Uuid)) :
    ∀ s : InnerState, (requests.map (·.1)).Nodup → (requests.map (·.2)).Nodup →
      (∀ id, Counted workerId s (startEach now workerId requests s).2 id) ∧
      (∀ id, id ∉ requests.map (·.1) →
        attemptCount (startEach now workerId requests s).2 id = attemptCount s id) ∧
      ∀ results, (startEach now workerId requests s).1 = .ok results → ∀ r ∈ results,
        r.1 ∈ requests.map (·.1) ∧ r.2.2 = attemptCount (startEach now workerId requests s).2 r.1 := by
  induction requests with
  | nil =>
      intro s _ _
      refine ⟨fun _ => .same rfl, fun _ _ => rfl, fun results h r hr => ?_⟩
      cases h
      exact absurd hr List.not_mem_nil
  | cons request rest ih =>
      intro s hjobs hattempts
      obtain ⟨jobId, attemptId⟩ := request
      obtain ⟨hjobnot, hjobs⟩ := List.nodup_cons.mp hjobs
      obtain ⟨hattnot, hattempts⟩ := List.nodup_cons.mp hattempts
      by_cases hl : Startable s workerId jobId
      · rw [startEach_cons now attemptId rest hl]
        simp only [prependAttempt_snd]
        have hcount := recordAttempt_count s now workerId jobId attemptId ((s.attemptCounts jobId).getD 0 + 1)
        have hrest := ih (recordAttempt s now workerId jobId attemptId ((s.attemptCounts jobId).getD 0 + 1))
          hjobs hattempts
        have hkept : (startEach now workerId rest (recordAttempt s now workerId jobId attemptId
            ((s.attemptCounts jobId).getD 0 + 1))).2.attempts attemptId =
              some (startedAttempt now attemptId jobId ((s.attemptCounts jobId).getD 0 + 1) workerId) := by
          rcases startEach_attempts now workerId rest _ hattempts attemptId with hsame | ⟨_, _, _, hin, _⟩
          · rw [hsame]
            exact Function.update_self ..
          · exact absurd (List.mem_map.mpr ⟨_, hin, rfl⟩) hattnot
        revert hrest hkept
        generalize startEach now workerId rest (recordAttempt s now workerId jobId attemptId
          ((s.attemptCounts jobId).getD 0 + 1)) = end_
        rintro ⟨hone, hout, hres⟩ hkept
        -- the job of this round is not requested again
        have hthis : attemptCount end_.2 jobId = attemptCount s jobId + 1 := by
          rw [hout jobId hjobnot, hcount, if_pos rfl]
          rfl
        refine ⟨fun id => ?_, fun id hid => ?_, fun all h r hr => ?_⟩
        · by_cases hid : id = jobId
          · subst hid
            exact .started hl.leased hthis hkept rfl rfl
          · have hsame : attemptCount (recordAttempt s now workerId jobId attemptId
                ((s.attemptCounts jobId).getD 0 + 1)) id = attemptCount s id := by rw [hcount, if_neg hid]
            cases hone id with
            | same h => exact .same (h.trans hsame)
            | started hleased hno hatt hj hrun =>
                rw [hsame] at hno
                exact .started hleased hno hatt hj hrun
        · rw [List.map_cons, List.mem_cons, not_or] at hid
          rw [hout id hid.2, hcount, if_neg hid.1]
        · obtain ⟨results, hend, rfl⟩ := prependAttempt_ok (Prod.ext h rfl)
          rcases List.mem_cons.mp hr with rfl | hr
          · exact ⟨List.mem_cons_self, hthis.symm⟩
          · obtain ⟨hin, hno⟩ := hres results (by rw [hend]) r hr
            exact ⟨List.mem_cons_of_mem _ hin, hno⟩
      · obtain ⟨_, hm, hno⟩ := startEach_stops now attemptId rest hl
        rw [hm]
        exact ⟨fun _ => .same rfl, fun _ _ => rfl, fun results h => absurd h (hno results)⟩

/-- **The step lemma.** Every call but the deletion of history keeps the attempts numbered. -/
theorem apply_numbered (hk : Keyed s) (h : Numbered s) (op : MemOp) (hadm : op.Admissible s)
    (hret : (op.apply s).1 = true)
    (hdelete : ∀ archiveOrder attemptOrder cutoff limit, op ≠ .deleteHistory archiveOrder attemptOrder cutoff limit) :
    Numbered (op.apply s).2 := by
  by_cases hstart : ∃ now requests workerId, op = .startAttempts now requests workerId
  · obtain ⟨now, requests, workerId, rfl⟩ := hstart
    simp only [MemOp.apply, MemOp.finish_snd]
    exact startEach_numbered now workerId requests s h hadm.1 hadm.2
  · exact h.same (apply_sameNumbers hk op hret (fun now requests workerId heq => hstart ⟨_, _, _, heq⟩) hdelete)

/-! ### Attempts belong to jobs

Every attempt and every counter is of a job that `get_job` finds, so a job starts out with none, under a new id. -/

/-- Attempts and counters are of jobs that are stored or archived. -/
structure Attributed (s : InnerState) : Prop where
  attempts : ∀ a att, s.attempts a = some att → (getJob s att.jobId).isSome
  counts : ∀ id, getJob s id = none → attemptCount s id = 0

/-- Starting attempts leaves the counter of a job that is not stored. -/
theorem startEach_absent (now : DateTime) (workerId : String) {id : Uuid} (requests : List (Uuid × Uuid)) :
    ∀ s : InnerState, s.jobs id = none → attemptCount (startEach now workerId requests s).2 id = attemptCount s id := by
  induction requests with
  | nil => intro s _; rfl
  | cons request rest ih =>
      intro s hnone
      obtain ⟨jobId, attemptId⟩ := request
      by_cases hl : Startable s workerId jobId
      · have hne : id ≠ jobId := by
          rintro rfl
          obtain ⟨job, hjob, _⟩ := hl.leased
          rw [hnone] at hjob
          cases hjob
        have hcount := recordAttempt_count s now workerId jobId attemptId ((s.attemptCounts jobId).getD 0 + 1) id
        have hrest := ih (recordAttempt s now workerId jobId attemptId ((s.attemptCounts jobId).getD 0 + 1)) hnone
        rw [startEach_cons now attemptId rest hl, prependAttempt_snd, hrest, hcount, if_neg hne]
      · obtain ⟨_, hm, _⟩ := startEach_stops now attemptId rest hl
        rw [hm]

/-- No call moves the counter of a job that is not stored. -/
theorem apply_count_absent (hk : Keyed s) (op : MemOp) (hret : (op.apply s).1 = true) {id : Uuid}
    (hnone : s.jobs id = none) : attemptCount (op.apply s).2 id = attemptCount s id := by
  by_cases hstart : ∃ now requests workerId, op = .startAttempts now requests workerId
  · obtain ⟨now, requests, workerId, rfl⟩ := hstart
    simp only [MemOp.apply, MemOp.finish_snd]
    exact startEach_absent now workerId requests s hnone
  · by_cases hdelete : ∃ archiveOrder attemptOrder cutoff limit,
        op = .deleteHistory archiveOrder attemptOrder cutoff limit
    · obtain ⟨_, _, _, _, rfl⟩ := hdelete
      rfl
    · exact (apply_sameNumbers hk op hret (fun _ _ _ heq => hstart ⟨_, _, _, heq⟩)
        fun _ _ _ _ heq => hdelete ⟨_, _, _, _, heq⟩).count id

theorem Attributed.step {call : Call} (hwf : WellFormed s) (hk : Keyed s) (h : Attributed s)
    (hstep : backendSystem.step s call s') : Attributed s' := by
  -- what `get_job` finds before the call, it finds after it
  have hstays (id : Uuid) (hsome : (getJob s id).isSome) : (getJob s' id).isSome := by
    obtain ⟨job, hget⟩ := Option.isSome_iff_exists.mp hsome
    obtain ⟨job', hget', _⟩ := getJob_step hwf hstep hget
    rw [hget']
    rfl
  have habsent (id : Uuid) (hnone : getJob s' id = none) : getJob s id = none := by
    rw [← Option.not_isSome_iff_eq_none]
    intro hsome
    have hfound := hstays id hsome
    rw [hnone] at hfound
    cases hfound
  rcases backendSystem_step hstep with ⟨op, rfl, hadm, happ⟩ | ⟨_, hsame⟩
  · have hret : (op.apply s).1 = true := by rw [happ]
    have hs' : (op.apply s).2 = s' := by rw [happ]
    refine ⟨fun a att hatt => ?_, fun id hnone => ?_⟩
    · have hentry := apply_attemptEntry hwf hk op hadm hret a
      rw [hs'] at hentry
      cases hentry with
      | kept same => exact hstays _ (h.attempts a att (same ▸ hatt))
      | started _ after leased _ _ =>
          rw [hatt] at after
          cases after
          exact hstays _ (Option.isSome_iff_exists.mpr ⟨_, getJob_eq_some.mpr (Or.inl leased)⟩)
      | closed before after closes _ _ =>
          rw [hatt] at after
          cases after
          rw [closes.jobId]
          exact hstays _ (h.attempts a _ before)
      | removed _ after _ =>
          rw [hatt] at after
          cases after
    · have hbefore := habsent id hnone
      have hjobs : s.jobs id = none := by
        cases hjob : s.jobs id with
        | none => rfl
        | some job =>
            rw [getJob_eq_some.mpr (Or.inl hjob)] at hbefore
            cases hbefore
      rw [← hs', apply_count_absent hk op hret hjobs]
      exact h.counts id hbefore
  · refine ⟨fun a att hatt => hstays _ (h.attempts a att (hsame.attempts ▸ hatt)), fun id hnone => ?_⟩
    rw [attemptCount, hsame.attemptCounts]
    exact h.counts id (habsent id hnone)

theorem reachable_attributed (h : backendSystem.Reachable s) : Attributed s := by
  refine h.invariant (I := Attributed) ?_ ?_
  · rintro _ rfl
    exact ⟨fun a att hatt => (by cases hatt), fun id _ => rfl⟩
  · intro s call s' hs hI hstep
    obtain ⟨hwf, hk⟩ := backend_invariants hs
    exact hI.step hwf hk hstep

/-- An id that no job has yet has no attempts. -/
theorem Unused.noAttempts (hs : backendSystem.Reachable s) {id : Uuid} (h : Unused s id) :
    attemptCount s id = 0 ∧ ∀ a att, s.attempts a = some att → att.jobId ≠ id := by
  have hattr := reachable_attributed hs
  have hnone : getJob s id = none := by rw [getJob, h.1, h.2]; rfl
  refine ⟨hattr.counts id hnone, ?_⟩
  rintro a att hatt rfl
  have hsome := hattr.attempts a att hatt
  rw [hnone] at hsome
  cases hsome

end Azums.Memory
