import Azums.Memory.Listing
import Azums.Redis.Backend
import Azums.Sqlite.Rows

/-!
# `Backends.Listing` — the job listings of SQLite and Redis, beside the memory backend's

`SqliteBackend` and `RedisBackend` take the cursor of a `list_jobs` request and do not read it, and `RedisBackend` sorts
by `created_at` alone, so that jobs created in the same instant come in the order of the hash. `list_jobs_agree_iff`
says which requests they answer as the memory backend does on the same jobs: those whose cursor cuts nothing off, and,
for Redis, whose page no tie of two jobs reaches into. A client that pages through either stops only where it asks for
no job at all.
-/

namespace Azums

/-! ## The operations -/

/-- The `WHERE` clauses of the four statements of `list_jobs`. -/
def Sqlite.listWhere : Option String → Option String → Job → Bool
  | some q, some st, r => r.queue == q && r.status == st
  | some q, none, r => r.queue == q
  | none, some st, r => r.status == st
  | none, none, _ => true

/-- `SqliteBackend::list_jobs`. A `created_at` is a reading of the clock, and its text sorts as the time. -/
def Sqlite.listJobs (db : Sqlite.Db) (queue status : Option String) (limit : Int)
    (_cursorCreatedAt : Option DateTime) (_cursorId : Option Uuid) : List JobListItem :=
  Sqlite.limit (min (max limit 1) 500)
    (((db.jobs.rows.filter (listWhere queue status)).map listItem).insertionSort NewestFirst)

/-- `Reverse(created_at)`. -/
def Redis.CreatedDesc (a b : JobListItem) : Prop := b.createdAt ≤ a.createdAt

instance : DecidableRel Redis.CreatedDesc := fun _ _ => inferInstanceAs (Decidable (_ ≤ _))
instance : Std.Total Redis.CreatedDesc := ⟨fun a b => le_total b.createdAt a.createdAt⟩
instance : IsTrans JobListItem Redis.CreatedDesc := ⟨fun _ _ _ hab hbc => le_trans hbc hab⟩

/-- `RedisBackend::list_jobs`; `dump` are the records that `HGETALL` yields, in the order of the `HashMap` they are
    read into, or `none` where the command fails. -/
def Redis.listJobs (dump : Option (List Job)) (queue status : Option String) (limit : Int)
    (_cursorCreatedAt : Option DateTime) (_cursorId : Option Uuid) : List JobListItem :=
  let items := ((dump.getD []).filter (listed queue status)).map listItem
  (items.insertionSort Redis.CreatedDesc).take (pageSize limit)

namespace Backends

open Memory (InnerState Enumerates OwnIds beforeCursor ordered_ids_nodup ordered_perm mem_ordered)

/-! ## The conditions -/

/-- The rows are the jobs of the map. -/
def SameJobs (rows : List Job) (jobs : Uuid → Option Job) : Prop := ∀ job, job ∈ rows ↔ jobs job.id = some job

/-- No stored job is asked for. -/
def NoneAsked (s : InnerState) (queue status : Option String) : Prop :=
  ∀ id job, s.jobs id = some job → listed queue status job = false

/-- The cursor is incomplete, or lets pass every job that is asked for. -/
def Uncut (s : InnerState) (queue status : Option String) (cursorCreatedAt : Option DateTime)
    (cursorId : Option Uuid) : Prop :=
  ∀ id job, s.jobs id = some job → listed queue status job = true →
    beforeCursor cursorCreatedAt cursorId (listItem job) = true

/-- Where two of the jobs that are asked for were created in the same instant, newer ones fill the page. -/
def Untied (s : InnerState) (order : List Uuid) (queue status : Option String) (limit : Int) : Prop :=
  ∀ id id' a b, s.jobs id = some a → s.jobs id' = some b → listed queue status a = true →
    listed queue status b = true → id ≠ id' → a.createdAt = b.createdAt →
    pageSize limit ≤ (order.filterMap s.jobs).countP
      (fun job => listed queue status job && decide (a.createdAt < job.createdAt))

/-! ## Pages as parts of the listing -/

variable {s : InnerState} {order : List Uuid} {queue status : Option String} {limit : Int}
  {cursorCreatedAt : Option DateTime} {cursorId : Option Uuid} {rows : List Job}

theorem memory_page (hown : OwnIds s) (ho : Enumerates s.jobs order) :
    Memory.listJobs s order queue status limit cursorCreatedAt cursorId =
      ((listing queue status (order.filterMap s.jobs)).filter (beforeCursor cursorCreatedAt cursorId)).take
        (pageSize limit) :=
  congrArg (List.take (pageSize limit)) (sort_filter_selected (ordered_ids_nodup hown ho) _)

theorem listWhere_eq (queue status : Option String) : Sqlite.listWhere queue status = listed queue status := by
  funext job
  cases queue <;> cases status <;> simp [Sqlite.listWhere, listed]

theorem limit_pageSize (limit : Int) (items : List JobListItem) :
    Sqlite.limit (min (max limit 1) 500) items = items.take (pageSize limit) := by
  have hpos : ¬min (max limit 1) 500 < 0 := by omega
  rw [Sqlite.limit, if_neg hpos]
  rfl

/-- A page of SQLite's listing is its beginning, whatever the cursor. -/
theorem sqlite_page (hown : OwnIds s) (ho : Enumerates s.jobs order) {db : Sqlite.Db}
    (hsame : SameJobs db.jobs.rows s.jobs) :
    Sqlite.listJobs db queue status limit cursorCreatedAt cursorId =
      (listing queue status (order.filterMap s.jobs)).take (pageSize limit) := by
  have hperm : db.jobs.rows.Perm (order.filterMap s.jobs) := by
    refine (List.perm_ext_iff_of_nodup (Sqlite.jobIds db).of_map (ordered_ids_nodup hown ho).of_map).mpr fun job => ?_
    rw [hsame, mem_ordered hown ho]
  rw [← listing_perm (Sqlite.jobIds db) hperm, Sqlite.listJobs, listWhere_eq, limit_pageSize]
  rfl

/-! ## What the cursor cuts -/

/-- What is listed below an item that passes the cursor passes it too. -/
theorem beforeCursor_below {a b : JobListItem} (ha : beforeCursor cursorCreatedAt cursorId a = true)
    (hab : Older a.cursorKey b.cursorKey) : beforeCursor cursorCreatedAt cursorId b = true := by
  unfold beforeCursor at *
  split
  · rename_i createdAt id
    have hbelow : Older (createdAt, id) a.cursorKey := by
      simpa [Older, JobListItem.cursorKey] using ha
    simpa [Older, JobListItem.cursorKey] using IsTrans.trans _ _ _ hbelow hab
  · rfl

/-- The cursor can be ignored exactly where it cuts nothing: otherwise it cuts the first item off. -/
theorem take_filter_cursor {items : List JobListItem} {n : Nat} (hn : 0 < n) (hids : (items.map (·.id)).Nodup)
    (hsorted : items.Pairwise (fun a b => Older a.cursorKey b.cursorKey)) :
    (items.take n).map (·.id) =
        ((items.filter (beforeCursor cursorCreatedAt cursorId)).take n).map (·.id) ↔
      ∀ item ∈ items, beforeCursor cursorCreatedAt cursorId item = true := by
  constructor
  · intro heq
    cases items with
    | nil => exact fun item hitem => absurd hitem List.not_mem_nil
    | cons first rest =>
        have hmem : first ∈ (first :: rest).take n := by
          obtain ⟨m, rfl⟩ := Nat.exists_eq_succ_of_ne_zero (Nat.ne_of_gt hn)
          exact List.mem_cons_self
        have hid := List.mem_map_of_mem (f := fun item : JobListItem => item.id) hmem
        rw [heq] at hid
        obtain ⟨item, hitem, hsame⟩ := List.mem_map.mp hid
        obtain ⟨hin, hpass⟩ := List.mem_filter.mp (List.mem_of_mem_take hitem)
        rw [List.inj_on_of_nodup_map hids hin List.mem_cons_self hsame] at hpass
        intro item hitem
        rcases List.mem_cons.mp hitem with rfl | hitem
        · exact hpass
        · exact beforeCursor_below hpass ((List.pairwise_cons.mp hsorted).1 item hitem)
  · intro hall
    rw [List.filter_eq_self.mpr hall]

theorem forall_listing_iff (hown : OwnIds s) (ho : Enumerates s.jobs order) :
    (∀ item ∈ listing queue status (order.filterMap s.jobs), beforeCursor cursorCreatedAt cursorId item = true) ↔
      Uncut s queue status cursorCreatedAt cursorId := by
  constructor
  · intro hall id job hjob hasked
    refine hall _ (mem_listing.mpr ⟨job, (mem_ordered hown ho).mpr ?_, hasked, rfl⟩)
    rw [hown id job hjob]
    exact hjob
  · intro huncut item hitem
    obtain ⟨job, hjob, hasked, rfl⟩ := mem_listing.mp hitem
    exact huncut job.id job ((mem_ordered hown ho).mp hjob) hasked

theorem listing_ids_nodup (h : (rows.map (·.id)).Nodup) : ((listing queue status rows).map (·.id)).Nodup :=
  ((List.perm_insertionSort _ _).map _).nodup_iff.mpr (selected_ids_nodup h)

/-- SQLite answers as the memory backend does exactly where the cursor cuts nothing. -/
theorem sqlite_agrees_iff (hown : OwnIds s) (ho : Enumerates s.jobs order) {db : Sqlite.Db}
    (hsame : SameJobs db.jobs.rows s.jobs) :
    (Sqlite.listJobs db queue status limit cursorCreatedAt cursorId).map (·.id) =
        (Memory.listJobs s order queue status limit cursorCreatedAt cursorId).map (·.id) ↔
      Uncut s queue status cursorCreatedAt cursorId := by
  have hnd := ordered_ids_nodup hown ho
  rw [sqlite_page hown ho hsame, memory_page hown ho,
    take_filter_cursor (pageSize_pos limit) (listing_ids_nodup hnd) (listing_sorted hnd), forall_listing_iff hown ho]

/-! ## How ties are broken -/

theorem eq_of_map_eq {α β : Type} {f : α → β} {l l' : List α} (hinj : ∀ a ∈ l, ∀ b ∈ l', f a = f b → a = b)
    (heq : l.map f = l'.map f) : l = l' := by
  induction l generalizing l' with
  | nil => exact (List.map_eq_nil_iff.mp heq.symm).symm
  | cons a rest ih =>
      cases l' with
      | nil => cases heq
      | cons b rest' =>
          rw [List.map_cons, List.map_cons, List.cons.injEq] at heq
          rw [hinj a List.mem_cons_self b List.mem_cons_self heq.1,
            ih (fun x hx y hy => hinj x (List.mem_cons_of_mem _ hx) y (List.mem_cons_of_mem _ hy)) heq.2]

/-- A hash may yield its jobs in any order. -/
theorem enumerates_of_perm (hown : OwnIds s) (ho : Enumerates s.jobs order) {jobs : List Job}
    (hp : jobs.Perm (order.filterMap s.jobs)) :
    Enumerates s.jobs (jobs.map (·.id)) ∧ (jobs.map (·.id)).filterMap s.jobs = jobs := by
  have hstored : ∀ job ∈ jobs, s.jobs job.id = some job := fun job hjob =>
    (mem_ordered hown ho).mp (hp.mem_iff.mp hjob)
  refine ⟨⟨(hp.map _).nodup_iff.mpr (ordered_ids_nodup hown ho), fun id => ?_⟩, ?_⟩
  · rw [List.mem_map]
    constructor
    · rintro ⟨job, hjob, rfl⟩
      rw [hstored job hjob]
      rfl
    · intro hid
      obtain ⟨job, hjob⟩ := Option.isSome_iff_exists.mp hid
      refine ⟨job, hp.mem_iff.mpr ((mem_ordered hown ho).mpr ?_), hown id job hjob⟩
      rw [hown id job hjob]
      exact hjob
  · rw [List.filterMap_map]
    exact (List.filterMap_congr hstored).trans List.filterMap_some

/-- Redis may break the ties of `created_at` in any way: there is an order of the hash for each. -/
theorem redis_page_of (hown : OwnIds s) (ho : Enumerates s.jobs order) (queue status : Option String) (limit : Int)
    (cursorCreatedAt : Option DateTime) (cursorId : Option Uuid) (r : JobListItem → JobListItem → Prop)
    [DecidableRel r] [Std.Total r] [IsTrans JobListItem r] (hr : ∀ a b, r a b → Redis.CreatedDesc a b) :
    ∃ order', Enumerates s.jobs order' ∧ ∃ items : List JobListItem,
      items.Perm (selected queue status (order.filterMap s.jobs)) ∧ items.Pairwise r ∧
      Redis.listJobs (some (order'.filterMap s.jobs)) queue status limit cursorCreatedAt cursorId =
        items.take (pageSize limit) := by
  have htotal : Std.Total (fun a b => r (listItem a) (listItem b)) := ⟨fun a b => Std.Total.total _ _⟩
  have htrans : IsTrans Job (fun a b => r (listItem a) (listItem b)) :=
    ⟨fun a b c hab hbc => IsTrans.trans _ _ _ hab hbc⟩
  have hperm := List.perm_insertionSort (fun a b => r (listItem a) (listItem b)) (order.filterMap s.jobs)
  have hsorted := List.pairwise_insertionSort (fun a b => r (listItem a) (listItem b)) (order.filterMap s.jobs)
  obtain ⟨ho', hjobs⟩ := enumerates_of_perm hown ho hperm
  refine ⟨_, ho', _, (hperm.filter _).map _, List.pairwise_map.mpr (hsorted.filter _), ?_⟩
  rw [hjobs, Redis.listJobs]
  refine congrArg (List.take (pageSize limit)) (List.Pairwise.insertionSort_eq ?_)
  exact List.pairwise_map.mpr ((hsorted.filter _).imp fun hab => hr _ _ hab)

/-- The order of the listing with the ties broken the other way. -/
def LowIdFirst (a b : JobListItem) : Prop :=
  b.createdAt < a.createdAt ∨ (b.createdAt = a.createdAt ∧ a.id ≤ b.id)

instance : DecidableRel LowIdFirst := fun _ _ => inferInstanceAs (Decidable (_ ∨ _))
instance : Std.Total LowIdFirst := ⟨fun a b => by simp only [LowIdFirst, DateTime, Uuid]; omega⟩
instance : IsTrans JobListItem LowIdFirst := ⟨fun a b c => by simp only [LowIdFirst, DateTime, Uuid]; omega⟩

/-- Two items of one instant do not both belong to a page that is sorted with their ids descending and ascending. -/
theorem createdAt_ne_of_both {page : List JobListItem} (hids : (page.map (·.id)).Nodup)
    (hdesc : page.Pairwise NewestFirst) (hasc : page.Pairwise LowIdFirst) {a b : JobListItem} (ha : a ∈ page)
    (hb : b ∈ page) (hab : a ≠ b) : a.createdAt ≠ b.createdAt := by
  have hapart : page.Pairwise (fun a b => a.createdAt ≠ b.createdAt) := by
    refine ((hdesc.and hasc).and (List.pairwise_map.mp hids)).imp fun {x y} hxy => ?_
    simp only [NewestFirst, LowIdFirst, DateTime, Uuid] at hxy ⊢
    omega
  have hsymm : Std.Symm (fun a b : JobListItem => a.createdAt ≠ b.createdAt) := ⟨fun _ _ h => h.symm⟩
  exact hapart.forall ha hb hab

/-- If a page does not depend on how ties are broken, newer items fill it before any tie. -/
theorem untied_of_take_eq {items items' : List JobListItem} {n : Nat} (hp : items.Perm items')
    (hids : (items.map (·.id)).Nodup) (hdesc : items.Pairwise NewestFirst) (hasc : items'.Pairwise LowIdFirst)
    (heq : items.take n = items'.take n) {a b : JobListItem} (ha : a ∈ items) (hb : b ∈ items) (hab : a ≠ b)
    (htie : a.createdAt = b.createdAt) : n ≤ items.countP (fun c => decide (a.createdAt < c.createdAt)) := by
  by_contra hlt
  -- some item of the page is not newer than the tie
  obtain ⟨x, hx, hold⟩ : ∃ x ∈ items.take n, ¬a.createdAt < x.createdAt := by
    by_contra hall
    push Not at hall
    have hpage : (items.take n).countP (fun c => decide (a.createdAt < c.createdAt)) = (items.take n).length :=
      List.countP_eq_length.mpr fun c hc => decide_eq_true (hall c hc)
    have hle := (List.take_sublist n items).countP_le (p := fun c => decide (a.createdAt < c.createdAt))
    have hself : items.countP (fun c => decide (a.createdAt < c.createdAt)) < items.length :=
      List.countP_lt_length_iff.mpr ⟨a, ha, by simp⟩
    rw [List.length_take] at hpage
    omega
  -- so both items of the tie are in the page: each comes before that item in one of the two orders
  have hin : ∀ c ∈ items, c.createdAt = a.createdAt → c ∈ items.take n := by
    intro c hc hca
    by_cases hid : c.id = x.id
    · rw [List.inj_on_of_nodup_map hids hc (List.mem_of_mem_take hx) hid]
      exact hx
    have hids' := (hp.map (·.id)).nodup_iff.mp hids
    by_cases hbefore : x.createdAt < c.createdAt ∨ x.id < c.id
    · refine OrderBy.mem_take_of_before (hdesc.and (List.pairwise_map.mp hids)) ?_ hx hc ⟨?_, hid⟩
      · simp only [NewestFirst, DateTime, Uuid]
        omega
      · simp only [NewestFirst, DateTime, Uuid] at *
        omega
    · rw [heq] at hx ⊢
      refine OrderBy.mem_take_of_before (hasc.and (List.pairwise_map.mp hids')) ?_ hx (hp.mem_iff.mp hc) ⟨?_, hid⟩
      · simp only [LowIdFirst, DateTime, Uuid]
        omega
      · simp only [LowIdFirst, DateTime, Uuid] at *
        omega
  have hids' : ((items.take n).map (·.id)).Nodup := hids.sublist ((List.take_sublist n items).map _)
  refine createdAt_ne_of_both hids' hdesc.take (heq ▸ hasc.take) (hin a ha rfl) (hin b hb htie.symm) hab htie

theorem NewestFirst.createdDesc (a b : JobListItem) (h : NewestFirst a b) : Redis.CreatedDesc a b := by
  simp only [NewestFirst, Redis.CreatedDesc, DateTime, Uuid] at *
  omega

theorem LowIdFirst.createdDesc (a b : JobListItem) (h : LowIdFirst a b) : Redis.CreatedDesc a b := by
  simp only [LowIdFirst, Redis.CreatedDesc, DateTime, Uuid] at *
  omega

/-- How many jobs that are asked for are newer, counted in the listing and in the store. -/
theorem countP_listing (rows : List Job) (t : DateTime) :
    (listing queue status rows).countP (fun c => decide (t < c.createdAt)) =
      rows.countP (fun job => listed queue status job && decide (t < job.createdAt)) := by
  rw [listing, (List.perm_insertionSort NewestFirst _).countP_eq, selected, List.countP_map, List.countP_filter]
  refine List.countP_congr fun job _ => ?_
  rw [Function.comp, Bool.and_comm]
  exact Iff.rfl

/-- Redis answers as the memory backend does, in whatever order the hash yields the jobs, exactly where the cursor cuts
    nothing and no tie reaches into the page. -/
theorem redis_agrees_iff (hown : OwnIds s) (ho : Enumerates s.jobs order) :
    (∀ order', Enumerates s.jobs order' →
        (Redis.listJobs (some (order'.filterMap s.jobs)) queue status limit cursorCreatedAt cursorId).map (·.id) =
          (Memory.listJobs s order queue status limit cursorCreatedAt cursorId).map (·.id)) ↔
      Uncut s queue status cursorCreatedAt cursorId ∧ Untied s order queue status limit := by
  have hnd := ordered_ids_nodup hown ho
  have hids : ((listing queue status (order.filterMap s.jobs)).map (·.id)).Nodup := listing_ids_nodup hnd
  have hdesc : (listing queue status (order.filterMap s.jobs)).Pairwise NewestFirst := List.pairwise_insertionSort ..
  rw [memory_page hown ho]
  constructor
  · intro hall
    obtain ⟨order₁, ho₁, items₁, hp₁, hs₁, hpage₁⟩ := redis_page_of hown ho queue status limit cursorCreatedAt cursorId
      NewestFirst NewestFirst.createdDesc
    obtain ⟨order₂, ho₂, items₂, hp₂, hs₂, hpage₂⟩ := redis_page_of hown ho queue status limit cursorCreatedAt cursorId
      LowIdFirst LowIdFirst.createdDesc
    have hfirst := hall order₁ ho₁
    have hsecond := hall order₂ ho₂
    have hlisting : items₁ = listing queue status (order.filterMap s.jobs) := by
      refine OrderBy.eq_of_sorted (hp₁.trans (List.perm_insertionSort _ _).symm) hs₁ hdesc fun a ha b hb => ?_
      exact selected_antisymm hnd a (hp₁.mem_iff.mp ha) b (hp₁.mem_iff.mp hb)
    rw [hpage₁, hlisting] at hfirst
    rw [hpage₂] at hsecond
    refine ⟨?_, ?_⟩
    · exact (forall_listing_iff hown ho).mp
        ((take_filter_cursor (pageSize_pos limit) hids (listing_sorted hnd)).mp hfirst)
    · have hperm : (listing queue status (order.filterMap s.jobs)).Perm items₂ :=
        (List.perm_insertionSort _ _).trans hp₂.symm
      have htake : (listing queue status (order.filterMap s.jobs)).take (pageSize limit) =
          items₂.take (pageSize limit) := by
        refine eq_of_map_eq (fun a ha b hb hab => ?_) (hfirst.trans hsecond.symm)
        exact List.inj_on_of_nodup_map hids (List.mem_of_mem_take ha)
          (hperm.mem_iff.mpr (List.mem_of_mem_take hb)) hab
      intro id id' a b ha hb haskedA haskedB hne htie
      have hidA := hown id a ha
      have hidB := hown id' b hb
      have hmemA := mem_listing.mpr ⟨a, (mem_ordered hown ho).mpr (by rw [hidA]; exact ha), haskedA, rfl⟩
      have hmemB := mem_listing.mpr ⟨b, (mem_ordered hown ho).mpr (by rw [hidB]; exact hb), haskedB, rfl⟩
      have happart : listItem a ≠ listItem b := by
        intro heq
        have hsame : a.id = b.id := congrArg JobListItem.id heq
        rw [hidA, hidB] at hsame
        exact hne hsame
      have hcount := untied_of_take_eq hperm hids hdesc hs₂ htake hmemA hmemB happart htie
      exact (countP_listing (order.filterMap s.jobs) a.createdAt) ▸ hcount
  · rintro ⟨huncut, huntied⟩ order' ho'
    have hall := (forall_listing_iff hown ho).mpr huncut
    have hperm : (listing queue status (order.filterMap s.jobs)).Perm
        ((selected queue status (order'.filterMap s.jobs)).insertionSort Redis.CreatedDesc) :=
      ((List.perm_insertionSort _ _).trans (((ordered_perm ho ho').filter _).map _)).trans
        (List.perm_insertionSort _ _).symm
    have htake := OrderBy.take_eq_of_sorted (n := pageSize limit) hperm
      (hdesc.imp fun hab => NewestFirst.createdDesc _ _ hab) (List.pairwise_insertionSort Redis.CreatedDesc _) ?_
    · rw [List.filter_eq_self.mpr hall, htake]
      rfl
    · intro x hx y hy hne hxy hyx
      obtain ⟨a, ha, haskedA, rfl⟩ := mem_listing.mp hx
      obtain ⟨b, hb, haskedB, rfl⟩ := mem_listing.mp hy
      have hstoredA := (mem_ordered hown ho).mp ha
      have hstoredB := (mem_ordered hown ho).mp hb
      have happart : a.id ≠ b.id := by
        intro hsame
        rw [hsame, hstoredB] at hstoredA
        cases hstoredA
        exact hne rfl
      have hcount := huntied a.id b.id a b hstoredA hstoredB haskedA haskedB happart (le_antisymm hyx hxy)
      rw [← countP_listing] at hcount
      refine hcount.trans (List.countP_mono_left fun c _ hc => ?_)
      rw [Bool.not_eq_true', decide_eq_false_iff_not]
      exact not_le.mpr (of_decide_eq_true hc)

/-! ## Paging -/

theorem listing_eq_nil_iff (hown : OwnIds s) (ho : Enumerates s.jobs order) :
    listing queue status (order.filterMap s.jobs) = [] ↔ NoneAsked s queue status := by
  rw [List.eq_nil_iff_forall_not_mem]
  constructor
  · intro hnone id job hjob
    rw [← Bool.not_eq_true]
    intro hasked
    refine hnone _ (mem_listing.mpr ⟨job, (mem_ordered hown ho).mpr ?_, hasked, rfl⟩)
    rw [hown id job hjob]
    exact hjob
  · intro hnone item hitem
    obtain ⟨job, hjob, hasked, _⟩ := mem_listing.mp hitem
    rw [hnone job.id job ((mem_ordered hown ho).mp hjob)] at hasked
    cases hasked

/-- Where requests are answered with or without items whatever their cursor, a client stops only if it gets none. -/
theorem walk_iff {fetch : Option (DateTime × Uuid) → List JobListItem} {none' : Prop}
    (hfetch : ∀ c, fetch c = [] ↔ none') :
    (∃ pages, Pages.Walk fetch JobListItem.cursorKey none pages) ↔ none' := by
  constructor
  · rintro ⟨pages, hwalk⟩
    by_contra hsome
    exact Pages.not_walk_of_stuck (fun c hnil => hsome ((hfetch c).mp hnil)) hwalk
  · intro hnone
    exact ⟨[[]], .done ((hfetch none).mpr hnone)⟩

/-- **The listings compared.** On the same jobs, SQLite answers a request as the memory backend does exactly where the
    cursor cuts off none of the jobs that are asked for. Redis does so, in whatever order its hash yields the jobs,
    exactly where moreover newer jobs fill the page before two jobs of one instant would come. A client that pages
    through SQLite or Redis stops exactly where it asks for no stored job. -/
theorem list_jobs_agree_iff (hown : OwnIds s) (ho : Enumerates s.jobs order) (queue status : Option String)
    (limit : Int) (cursorCreatedAt : Option DateTime) (cursorId : Option Uuid) :
    (∀ db : Sqlite.Db, SameJobs db.jobs.rows s.jobs →
      ((Sqlite.listJobs db queue status limit cursorCreatedAt cursorId).map (·.id) =
          (Memory.listJobs s order queue status limit cursorCreatedAt cursorId).map (·.id) ↔
        Uncut s queue status cursorCreatedAt cursorId) ∧
      ((∃ pages, Pages.Walk (fun c => Sqlite.listJobs db queue status limit (c.map (·.1)) (c.map (·.2)))
        JobListItem.cursorKey none pages) ↔ NoneAsked s queue status)) ∧
    (∀ r : Redis.Store, r.jobs = s.jobs →
      ((∀ order', Enumerates r.jobs order' →
          (Redis.listJobs (some (order'.filterMap r.jobs)) queue status limit cursorCreatedAt cursorId).map (·.id) =
            (Memory.listJobs s order queue status limit cursorCreatedAt cursorId).map (·.id)) ↔
        Uncut s queue status cursorCreatedAt cursorId ∧ Untied s order queue status limit) ∧
      ∀ fetch : Option (DateTime × Uuid) → List JobListItem,
        (∀ c, ∃ order', Enumerates r.jobs order' ∧ fetch c =
          Redis.listJobs (some (order'.filterMap r.jobs)) queue status limit (c.map (·.1)) (c.map (·.2))) →
        ((∃ pages, Pages.Walk fetch JobListItem.cursorKey none pages) ↔ NoneAsked s queue status)) := by
  have hpos := pageSize_pos limit
  refine ⟨fun db hsame => ⟨sqlite_agrees_iff hown ho hsame, walk_iff fun c => ?_⟩,
    fun r hr => ⟨by rw [hr]; exact redis_agrees_iff hown ho, fun fetch hfetch => walk_iff fun c => ?_⟩⟩
  · rw [sqlite_page hown ho hsame, List.take_eq_nil_iff, listing_eq_nil_iff hown ho]
    exact or_iff_right (by omega)
  · obtain ⟨order', ho', heq⟩ := hfetch c
    rw [hr] at ho' heq
    rw [heq, ← listing_eq_nil_iff hown ho', Redis.listJobs, List.take_eq_nil_iff, listing]
    refine (or_iff_right (by omega)).trans ?_
    rw [← List.length_eq_zero_iff, ← List.length_eq_zero_iff, List.length_insertionSort, List.length_insertionSort]
    rfl

/-- The jobs of a store in some order are the same jobs. -/
theorem sameJobs_ordered (hown : OwnIds s) (ho : Enumerates s.jobs order) : SameJobs (order.filterMap s.jobs) s.jobs :=
  fun _ => mem_ordered hown ho

/-- The table that has taken the same jobs as the store with two queues. -/
def twoQueuesRows : Sqlite.Db :=
  let db := (Sqlite.enqueueInTx Sqlite.Db.empty 5 8 Memory.welcomeEmail).2
  let db := (Sqlite.enqueueInTx db 5 7 Memory.welcomeEmail).2
  let db := (Sqlite.enqueueInTx db 6 9 { Memory.welcomeEmail with deadlineAt := some 10 }).2
  let db := (Sqlite.enqueueInTx db 6 10 { Memory.welcomeEmail with queue := "reports" }).2
  (Sqlite.enqueueInTx db 7 11 { Memory.welcomeEmail with priority := 5 }).2

theorem twoQueues_same : Enumerates Memory.twoQueues.jobs [8, 7, 9, 10, 11] ∧
    SameJobs twoQueuesRows.jobs.rows Memory.twoQueues.jobs := by
  obtain ⟨hreach, horder⟩ := Memory.twoQueues_reachable
  have hhash : Enumerates Memory.twoQueues.jobs [8, 7, 9, 10, 11] := horder.perm (by decide)
  have hrows : twoQueuesRows.jobs.rows = [8, 7, 9, 10, 11].filterMap Memory.twoQueues.jobs := rfl
  refine ⟨hhash, ?_⟩
  rw [hrows]
  exact sameJobs_ordered (Memory.reachable_ownIds hreach) hhash

/-- A cursor above all jobs of the queue cuts nothing off, and two newer jobs fill the page before the two of one
    instant: the three answer alike, whatever the order of the hash. -/
theorem list_jobs_agree_iff_first_page :
    (Sqlite.listJobs twoQueuesRows (some "emails") none 2 (some 9) (some 1)).map (·.id) = [11, 9] ∧
      (Redis.listJobs (some ([8, 7, 9, 10, 11].filterMap Memory.twoQueues.jobs)) (some "emails") none 2 (some 9)
          (some 1)).map (·.id) =
        (Memory.listJobs Memory.twoQueues [11, 10, 9, 7, 8] (some "emails") none 2 (some 9) (some 1)).map (·.id) := by
  obtain ⟨hreach, horder⟩ := Memory.twoQueues_reachable
  obtain ⟨hhash, hsame⟩ := twoQueues_same
  have hown : OwnIds Memory.twoQueues := Memory.reachable_ownIds hreach
  have hstored {id : Uuid} {job : Job} (h : Memory.twoQueues.jobs id = some job) :
      job ∈ [11, 10, 9, 7, 8].filterMap Memory.twoQueues.jobs := by
    refine (mem_ordered hown horder).mpr ?_
    rw [hown id job h]
    exact h
  have huncut : Uncut Memory.twoQueues (some "emails") none (some 9) (some 1) := by
    have hall : ∀ job ∈ [11, 10, 9, 7, 8].filterMap Memory.twoQueues.jobs,
        beforeCursor (some 9) (some 1) (listItem job) = true := by decide
    exact fun id job hjob _ => hall job (hstored hjob)
  have huntied : Untied Memory.twoQueues [11, 10, 9, 7, 8] (some "emails") none 2 := by
    have hall : ∀ a ∈ [11, 10, 9, 7, 8].filterMap Memory.twoQueues.jobs,
        ∀ b ∈ [11, 10, 9, 7, 8].filterMap Memory.twoQueues.jobs, listed (some "emails") none a = true →
        listed (some "emails") none b = true → a.id ≠ b.id → a.createdAt = b.createdAt →
        pageSize 2 ≤ ([11, 10, 9, 7, 8].filterMap Memory.twoQueues.jobs).countP
          (fun job => listed (some "emails") none job && decide (a.createdAt < job.createdAt)) := by decide
    intro id id' a b ha hb haskedA haskedB hne
    refine hall a (hstored ha) b (hstored hb) haskedA haskedB ?_
    rw [hown id a ha, hown id' b hb]
    exact hne
  obtain ⟨hsqlite, hredis⟩ := list_jobs_agree_iff hown horder (some "emails") none 2 (some 9) (some 1)
  have hstore : (⟨Memory.twoQueues.jobs, fun _ => none, [], fun _ => 0⟩ : Redis.Store).jobs =
      Memory.twoQueues.jobs := rfl
  exact ⟨((hsqlite twoQueuesRows hsame).1.mpr huncut).trans (by decide),
    (hredis _ hstore).1.mpr ⟨huncut, huntied⟩ [8, 7, 9, 10, 11] hhash⟩

/-- A store with one job, and the same job in a table. -/
def oneJob : InnerState := ((Memory.MemOp.enqueue 5 7 [] Memory.welcomeEmail).apply InnerState.init).2

def oneRow : Sqlite.Db := (Sqlite.enqueueInTx Sqlite.Db.empty 5 7 Memory.welcomeEmail).2

theorem oneJob_same : Enumerates oneJob.jobs [7] ∧ SameJobs oneRow.jobs.rows oneJob.jobs := by
  obtain ⟨hreach, horder⟩ := Memory.enqueue_reachable (.start rfl) Memory.enumerates_nil 5 7 Memory.welcomeEmail
    ⟨rfl, rfl⟩ rfl
  have hrows : oneRow.jobs.rows = [7].filterMap oneJob.jobs := rfl
  refine ⟨horder, ?_⟩
  rw [hrows]
  exact sameJobs_ordered (Memory.reachable_ownIds hreach) horder

/-- With the only job as its cursor, a request gets nothing from memory, and that job again from SQLite and Redis. -/
theorem list_jobs_cursor_ignored :
    SameJobs oneRow.jobs.rows oneJob.jobs ∧ Enumerates oneJob.jobs [7] ∧
      (Memory.listJobs oneJob [7] none none 10 (some 5) (some 7)).map (·.id) = [] ∧
      (Sqlite.listJobs oneRow none none 10 (some 5) (some 7)).map (·.id) = [7] ∧
      (Redis.listJobs (some ([7].filterMap oneJob.jobs)) none none 10 (some 5) (some 7)).map (·.id) = [7] :=
  ⟨oneJob_same.2, oneJob_same.1, by decide, by decide, by decide⟩

end Backends
end Azums
