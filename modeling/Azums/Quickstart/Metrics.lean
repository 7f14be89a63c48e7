import Azums.Backends.Listing
import Mathlib.Data.Rat.Init
import Mathlib.Data.String.Basic

/-!
# `Quickstart.Metrics` — queue metrics, native and from a listing

`MemoryBackend::queue_metrics` counts the stored jobs of each queue. For a backend that has no metrics of its own,
`QuickstartFlow` counts the items of one `list_jobs` request instead, and that request asks for 500 items.
`fallback_agrees_iff` says what that means: the counts are those of `MemoryBackend` as long as at most 500 jobs are
asked for, and no longer.
-/

namespace Azums

open Memory (InnerState MemoryAttempt Enumerates OwnIds ordered_ids_nodup ordered_perm mem_ordered)

/-- `QueueMetrics`. An average is carried before it is rounded to an `f64`. -/
structure QueueMetrics where
  at_ : DateTime
  queue : String
  jobsTotal : Nat
  jobsCompleted : Nat
  jobsFailed : Nat
  jobsRetried : Nat
  jobsDlq : Nat
  queueDepth : Nat
  executionLatencyMsAvg : Rat
  claimLatencyMsAvg : Rat
  retryLatencyMsAvg : Rat
  workerCount : Nat

/-- The counts of jobs in a row, with its queue. -/
def QueueMetrics.counts (m : QueueMetrics) : String × Nat × Nat × Nat × Nat :=
  (m.queue, m.jobsTotal, m.jobsCompleted, m.jobsDlq, m.queueDepth)

/-- `a.queue.cmp(&b.queue)` is not `Greater`. -/
def ByQueue (a b : QueueMetrics) : Prop := a.queue ≤ b.queue

instance : DecidableRel ByQueue := fun a b => inferInstanceAs (Decidable (a.queue ≤ b.queue))

/-! ## The metrics of the memory backend -/

namespace Memory

/-- `avg_i64`. -/
def avgI64 (values : List Int) : Rat := if values.isEmpty then 0 else (values.sum : Rat) / values.length

/-- `Duration::num_milliseconds`. -/
def numMilliseconds (d : Int) : Int := d.tdiv 1000000

/-- The row of one queue. -/
def queueRow (s : InnerState) (now : DateTime) (order attemptOrder : List Uuid) (queueName : String) : QueueMetrics :=
  let jobs := (order.filterMap s.jobs).filter (fun job => job.queue == queueName)
  let attempts := (attemptOrder.filterMap s.attempts).filter
    (fun attempt => (getJob s attempt.jobId).any (fun job => job.queue == queueName))
  let workers := ((jobs.filter (fun job => job.status == "running")).filterMap (·.lockedBy)).dedup
  let retryLatency := attempts.filterMap (fun attempt => do
    let finishedAt ← attempt.finishedAt
    let job ← getJob s attempt.jobId
    let millis := numMilliseconds (job.runAt - finishedAt)
    if millis > 0 then some millis else none)
  { at_ := now
    queue := queueName
    jobsTotal := jobs.length
    jobsCompleted := (jobs.filter (fun job => job.status == "succeeded" || job.status == "completed")).length
    jobsFailed := (attempts.filter (fun attempt => attempt.status == "failed")).length
    jobsRetried := ((attempts.filter (fun attempt => attempt.status == "failed")).filter
      (fun attempt => (s.jobs attempt.jobId).any (fun job => job.status == "queued"))).length
    jobsDlq := (jobs.filter (fun job => job.status == "dlq")).length
    queueDepth := (jobs.filter (fun job => job.status == "queued" && decide (job.runAt ≤ now))).length
    executionLatencyMsAvg := avgI64 (attempts.filterMap (·.latencyMs))
    claimLatencyMsAvg := avgI64 (jobs.filterMap (fun job =>
      job.lockedAt.map (fun lockedAt => numMilliseconds (lockedAt - job.createdAt))))
    retryLatencyMsAvg := avgI64 retryLatency
    workerCount := workers.length }

/-- The queues that get a row, each once. -/
def metricQueues (s : InnerState) (order : List Uuid) (queue : Option String) : List String :=
  (((order.filterMap s.jobs).filter (fun job => queue.all (fun target => job.queue == target))).map (·.queue) ++
    queue.toList).dedup

/-- `queue_metrics`. -/
def queueMetrics (s : InnerState) (now : DateTime) (order attemptOrder : List Uuid) (queue : Option String) :
    List QueueMetrics :=
  ((metricQueues s order queue).map (queueRow s now order attemptOrder)).insertionSort ByQueue

end Memory

/-! ## The metrics of a listing -/

namespace Quickstart

/-- The row of one queue, from the items that were pushed under its name. -/
def fallbackRow (now : DateTime) (items : List JobListItem) (queueName : String) : QueueMetrics :=
  let jobs := items.filter (fun job => job.queue == queueName)
  { at_ := now
    queue := queueName
    jobsTotal := jobs.length
    jobsCompleted := (jobs.filter (fun job => job.status == "succeeded" || job.status == "completed")).length
    jobsFailed := 0
    jobsRetried := 0
    jobsDlq := (jobs.filter (fun job => job.status == "dlq")).length
    queueDepth := (jobs.filter (fun job => job.status == "queued" && decide (job.runAt ≤ now))).length
    executionLatencyMsAvg := 0
    claimLatencyMsAvg := 0
    retryLatencyMsAvg := 0
    workerCount := 0 }

/-- The keys of `by_queue`. -/
def fallbackQueues (items : List JobListItem) (queue : Option String) : List String :=
  (items.map (·.queue) ++ queue.toList).dedup

/-- `fallback_queue_metrics`; `items` are what `list_jobs(queue, None, 500, None, None)` answers. -/
def fallbackQueueMetrics (now : DateTime) (items : List JobListItem) (queue : Option String) : List QueueMetrics :=
  ((fallbackQueues items queue).map (fallbackRow now items)).insertionSort ByQueue

/-! ## The page behind the fallback -/

open Backends (SameJobs)

/-- The backends' answers to the request of the fallback, on the jobs of a store. -/
inductive Page (s : InnerState) (queue : Option String) : List JobListItem → Prop where
  | memory {order : List Uuid} : Enumerates s.jobs order →
      Page s queue (Memory.listJobs s order queue none 500 none none)
  | sqlite {db : Sqlite.Db} : SameJobs db.jobs.rows s.jobs → Page s queue (Sqlite.listJobs db queue none 500 none none)
  | redis {r : Redis.Store} {order : List Uuid} : r.jobs = s.jobs → Enumerates r.jobs order →
      Page s queue (Redis.listJobs (some (order.filterMap r.jobs)) queue none 500 none none)

variable {s : InnerState} {order attemptOrder : List Uuid} {now : DateTime} {queue : Option String}
  {items all : List JobListItem} {name : String}

/-- Each backend answers with the first 500 of the items that are asked for, in an order of its own. -/
theorem Page.eq_take (hown : OwnIds s) (ho : Enumerates s.jobs order) (h : Page s queue items) :
    ∃ all : List JobListItem, all.Perm (selected queue none (order.filterMap s.jobs)) ∧ items = all.take 500 := by
  cases h with
  | @memory order' ho' =>
      refine ⟨listing queue none (order'.filterMap s.jobs), ?_, ?_⟩
      · exact (List.perm_insertionSort _ _).trans (((ordered_perm ho' ho).filter _).map _)
      · have huncut : (listing queue none (order'.filterMap s.jobs)).filter (Memory.beforeCursor none none) =
            listing queue none (order'.filterMap s.jobs) := List.filter_eq_self.mpr fun _ _ => rfl
        rw [Backends.memory_page hown ho', huncut]
        rfl
  | sqlite hsame =>
      exact ⟨listing queue none (order.filterMap s.jobs), List.perm_insertionSort _ _,
        Backends.sqlite_page hown ho hsame⟩
  | redis hr ho' =>
      rw [hr] at ho' ⊢
      exact ⟨_, (List.perm_insertionSort _ _).trans (((ordered_perm ho' ho).filter _).map _), rfl⟩

/-! ## Counting the same jobs -/

/-- The items of one queue are its jobs, if that queue is asked for. -/
theorem items_of_queue (hall : all.Perm (selected queue none (order.filterMap s.jobs)))
    (hname : ∀ q ∈ queue, name = q) :
    (all.filter (fun item => item.queue == name)).Perm
      (((order.filterMap s.jobs).filter (fun job => job.queue == name)).map listItem) := by
  refine (hall.filter _).trans (List.Perm.of_eq ?_)
  rw [selected, List.filter_map, List.filter_filter]
  refine congrArg (List.map listItem) (List.filter_congr fun job _ => ?_)
  show (job.queue == name && listed queue none job) = (job.queue == name)
  by_cases hq : job.queue = name
  · cases queue with
    | none => simp [listed]
    | some q => simp [listed, hq, hname q rfl]
  · simp [hq]

/-- The counts of a queue agree where all items are there. -/
theorem counts_row (hall : all.Perm (selected queue none (order.filterMap s.jobs))) (hname : ∀ q ∈ queue, name = q) :
    (fallbackRow now all name).counts = (Memory.queueRow s now order attemptOrder name).counts := by
  have hitems := items_of_queue hall hname
  have hcount (p : JobListItem → Bool) : ((all.filter (fun item => item.queue == name)).filter p).length =
      (((order.filterMap s.jobs).filter (fun job => job.queue == name)).filter (p ∘ listItem)).length := by
    rw [(hitems.filter p).length_eq, List.filter_map, List.length_map]
  have htotal := hitems.length_eq
  rw [List.length_map] at htotal
  simp only [QueueMetrics.counts, fallbackRow, Memory.queueRow, htotal, hcount]
  rfl

/-- The same queues get a row. -/
theorem queues_perm (hall : all.Perm (selected queue none (order.filterMap s.jobs))) :
    (fallbackQueues all queue).Perm (Memory.metricQueues s order queue) := by
  refine ((((hall.map _).trans (List.Perm.of_eq ?_))).append_right _).dedup
  rw [selected, List.map_map]
  refine congrArg (List.map _) (List.filter_congr fun job _ => ?_)
  simp [listed]

/-- Every queue that gets a row is one that is asked for. -/
theorem eq_of_mem_queues (h : name ∈ Memory.metricQueues s order queue) : ∀ q ∈ queue, name = q := by
  rintro q rfl
  rcases List.mem_append.mp (List.mem_dedup.mp h) with hin | hin
  · obtain ⟨job, hjob, rfl⟩ := List.mem_map.mp hin
    simpa using (List.mem_filter.mp hjob).2
  · simpa using hin

/-- Rows that count alike, sorted by queue, make the same table of counts. -/
theorem counts_sorted {f g : String → QueueMetrics} {names names' : List String} (hp : names.Perm names')
    (hf : ∀ n, (f n).queue = n) (hfg : ∀ n ∈ names, (f n).counts = (g n).counts) :
    ((names.map f).insertionSort ByQueue).map QueueMetrics.counts =
      ((names'.map g).insertionSort ByQueue).map QueueMetrics.counts := by
  have htotal : Std.Total (fun a b : String × Nat × Nat × Nat × Nat => a.1 ≤ b.1) := ⟨fun a b => le_total a.1 b.1⟩
  have htrans : IsTrans (String × Nat × Nat × Nat × Nat) (fun a b => a.1 ≤ b.1) :=
    ⟨fun _ _ _ hab hbc => le_trans hab hbc⟩
  rw [List.map_insertionSort ByQueue (fun a b => a.1 ≤ b.1) QueueMetrics.counts _ fun _ _ _ _ => Iff.rfl,
    List.map_insertionSort ByQueue (fun a b => a.1 ≤ b.1) QueueMetrics.counts _ fun _ _ _ _ => Iff.rfl,
    List.map_map, List.map_map]
  have hsame : names.map (QueueMetrics.counts ∘ f) = names.map (QueueMetrics.counts ∘ g) :=
    List.map_congr_left hfg
  have hperm : (names.map (QueueMetrics.counts ∘ f)).Perm (names'.map (QueueMetrics.counts ∘ g)) := by
    rw [hsame]
    exact hp.map _
  refine OrderBy.eq_of_sorted ((List.perm_insertionSort _ _).trans (hperm.trans (List.perm_insertionSort _ _).symm))
    (List.pairwise_insertionSort _ _) (List.pairwise_insertionSort _ _) fun a ha b hb hab hba => ?_
  obtain ⟨n, _, rfl⟩ := List.mem_map.mp ((List.mem_insertionSort _).mp ha)
  obtain ⟨m, _, rfl⟩ := List.mem_map.mp ((List.mem_insertionSort _).mp hb)
  have hnm : (f n).queue = (f m).queue := le_antisymm hab hba
  rw [hf, hf] at hnm
  rw [hnm]

/-! ## When the fallback agrees -/

/-- The page holds the items of up to 500 jobs. -/
theorem fallback_agrees (hall : all.Perm (selected queue none (order.filterMap s.jobs))) (hfits : all.length ≤ 500) :
    (fallbackQueueMetrics now (all.take 500) queue).map QueueMetrics.counts =
      (Memory.queueMetrics s now order attemptOrder queue).map QueueMetrics.counts := by
  rw [List.take_of_length_le hfits]
  refine counts_sorted (queues_perm hall) (fun _ => rfl) fun n hn => ?_
  exact counts_row hall (eq_of_mem_queues ((queues_perm hall).mem_iff.mp hn))

/-- Of more jobs some item does not fit into the page, and its queue is counted short. -/
theorem fallback_short (hall : all.Perm (selected queue none (order.filterMap s.jobs))) (hmore : 500 < all.length) :
    (fallbackQueueMetrics now (all.take 500) queue).map QueueMetrics.counts ≠
      (Memory.queueMetrics s now order attemptOrder queue).map QueueMetrics.counts := by
  intro heq
  have hleft : 0 < (all.drop 500).length := by
    rw [List.length_drop]
    omega
  obtain ⟨x, hx⟩ := List.exists_mem_of_length_pos hleft
  have hxq : x.queue ∈ Memory.metricQueues s order queue := by
    refine (queues_perm hall).mem_iff.mp (List.mem_dedup.mpr (List.mem_append.mpr (Or.inl ?_)))
    exact List.mem_map_of_mem (List.mem_of_mem_drop hx)
  have hrow : (Memory.queueRow s now order attemptOrder x.queue).counts ∈
      (Memory.queueMetrics s now order attemptOrder queue).map QueueMetrics.counts :=
    List.mem_map_of_mem ((List.mem_insertionSort _).mpr (List.mem_map_of_mem hxq))
  rw [← heq] at hrow
  obtain ⟨m, hm, hcounts⟩ := List.mem_map.mp hrow
  obtain ⟨name, _, rfl⟩ := List.mem_map.mp ((List.mem_insertionSort _).mp hm)
  rw [← counts_row hall (eq_of_mem_queues hxq)] at hcounts
  simp only [QueueMetrics.counts, fallbackRow, Prod.mk.injEq] at hcounts
  obtain ⟨rfl, htotal, _⟩ := hcounts
  have hsplit := congrArg (fun l => (l.filter (fun item : JobListItem => item.queue == x.queue)).length)
    (List.take_append_drop 500 all)
  simp only [List.filter_append, List.length_append] at hsplit
  have hpos : 0 < ((all.drop 500).filter (fun item => item.queue == x.queue)).length :=
    List.length_pos_of_mem (List.mem_filter.mpr ⟨hx, by simp⟩)
  omega

/-- **Where the fallback agrees.** Computed from the listing of any of the three backends, the counts of the fallback
    are those of the memory backend's metrics on the same jobs exactly if at most 500 jobs are asked for. -/
theorem fallback_agrees_iff (hown : OwnIds s) (ho : Enumerates s.jobs order) (attemptOrder : List Uuid) (now : DateTime)
    (queue : Option String) {items : List JobListItem} (hpage : Page s queue items) :
    (fallbackQueueMetrics now items queue).map QueueMetrics.counts =
        (Memory.queueMetrics s now order attemptOrder queue).map QueueMetrics.counts ↔
      (order.filterMap s.jobs).countP (listed queue none) ≤ 500 := by
  obtain ⟨all, hall, rfl⟩ := hpage.eq_take hown ho
  have hlen : all.length = (order.filterMap s.jobs).countP (listed queue none) := by
    rw [hall.length_eq, selected, List.length_map, List.countP_eq_length_filter]
  rw [← hlen]
  refine ⟨fun heq => ?_, fallback_agrees hall⟩
  by_contra hmore
  exact fallback_short hall (not_le.mp hmore) heq

/-- Four jobs of one queue and one of another, listed by SQLite, are counted alike. -/
theorem fallback_agrees_iff_two_queues :
    let items := Sqlite.listJobs Backends.twoQueuesRows none none 500 none none
    (fallbackQueueMetrics 9 items none).map QueueMetrics.counts =
        (Memory.queueMetrics Memory.twoQueues 9 [11, 10, 9, 7, 8] [] none).map QueueMetrics.counts ∧
      (fallbackQueueMetrics 9 items none).map QueueMetrics.counts =
        [("emails", 4, 0, 0, 4), ("reports", 1, 0, 0, 1)] := by
  obtain ⟨hreach, horder⟩ := Memory.twoQueues_reachable
  exact ⟨(fallback_agrees_iff (Memory.reachable_ownIds hreach) horder [] 9 none
    (.sqlite Backends.twoQueues_same.2)).mpr (by decide), by decide⟩

/-- `n` jobs enqueued one after the other. -/
def crowd (n : Nat) : InnerState :=
  (List.range n).foldl (fun s id => (Memory.enqueue s 0 id [] Memory.welcomeEmail).2) InnerState.init

theorem crowd_jobs (n id : Nat) :
    (crowd n).jobs id = if id < n then some (Memory.newEntity 0 id Memory.welcomeEmail) else none := by
  induction n with
  | zero => rfl
  | succ n ih =>
      have hstep : (crowd (n + 1)).jobs =
          Function.update (crowd n).jobs n (some (Memory.newEntity 0 n Memory.welcomeEmail)) := by
        unfold crowd
        rw [List.range_succ, List.foldl_append]
        rfl
      rw [hstep]
      by_cases hid : id = n
      · rw [hid, Function.update_self, if_pos (Nat.lt_succ_self n)]
      · rw [Function.update_of_ne hid, ih]
        exact if_congr (by omega) rfl rfl

theorem crowd_stored (n : Nat) :
    OwnIds (crowd n) ∧ Enumerates (crowd n).jobs (List.range n) ∧
      ((List.range n).filterMap (crowd n).jobs).length = n := by
  refine ⟨fun id job hjob => ?_, ⟨List.nodup_range, fun id => ?_⟩, ?_⟩
  · rw [crowd_jobs, Option.ite_none_right_eq_some, Option.some.injEq] at hjob
    rw [← hjob.2]
    rfl
  · rw [crowd_jobs, List.mem_range]
    by_cases hid : id < n <;> simp [hid]
  · rw [List.length_filterMap_eq_countP, List.countP_eq_length.mpr, List.length_range]
    intro id hid
    rw [crowd_jobs, if_pos (List.mem_range.mp hid)]
    rfl

/-- Of 501 jobs the fallback counts 500. -/
theorem fallback_counts_short :
    Page (crowd 501) none (Memory.listJobs (crowd 501) (List.range 501) none none 500 none none) ∧
      (fallbackQueueMetrics 9 (Memory.listJobs (crowd 501) (List.range 501) none none 500 none none) none).map
          QueueMetrics.counts ≠
        (Memory.queueMetrics (crowd 501) 9 (List.range 501) [] none).map QueueMetrics.counts := by
  obtain ⟨hown, horder, hlen⟩ := crowd_stored 501
  have hpage : Page (crowd 501) none (Memory.listJobs (crowd 501) (List.range 501) none none 500 none none) :=
    .memory horder
  obtain ⟨all, hall, heq⟩ := hpage.eq_take hown horder
  refine ⟨hpage, ?_⟩
  rw [heq]
  have hasked : ((List.range 501).filterMap (crowd 501).jobs).filter (listed none none) =
      (List.range 501).filterMap (crowd 501).jobs := List.filter_eq_self.mpr fun _ _ => rfl
  refine fallback_short hall ?_
  rw [hall.length_eq, selected, List.length_map, hasked, hlen]
  omega

end Quickstart
end Azums
