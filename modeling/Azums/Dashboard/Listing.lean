import Azums.Postgres.Listing

/-!
# `Dashboard.Listing` — paging through the jobs while they run

`GET /jobs` and `GET /dlq` answer with a page of jobs and the cursor of the next one. A client asks for page after page
until one is empty; between two of its requests jobs are enqueued, leased, completed and canceled. `browse_law` is what
it can rely on: no job is on two pages, what is on a page was so when the page was read, a job that stays what was asked
for is not missed, and the pages come to an end.
-/

namespace Azums.Dashboard

open Azums.Postgres

/-! ## The endpoints -/

/-- `ListJobsQuery`. -/
structure ListJobsQuery where
  queue : Option String
  status : Option String
  limit : Option Int
  cursorCreatedAt : Option DateTime
  cursorId : Option Uuid

/-- `ListJobsResponse`. -/
structure ListJobsResponse where
  items : List JobListItem
  nextCursorCreatedAt : Option DateTime
  nextCursorId : Option Uuid

/-- `list_jobs`. -/
def listJobs (s : Store) (q : ListJobsQuery) : ListJobsResponse :=
  let items := Postgres.listJobs s.committedJobs q.queue q.status (q.limit.getD 100) q.cursorCreatedAt q.cursorId
  let next := (items.getLast?.map (fun x => (some x.createdAt, some x.id))).getD (none, none)
  { items := items, nextCursorCreatedAt := next.1, nextCursorId := next.2 }

/-- `list_dlq`. -/
def listDlq (s : Store) (q : ListJobsQuery) : ListJobsResponse := listJobs s { q with status := some "dlq" }

/-- The two endpoints. -/
inductive Endpoint where
  | jobs
  | dlq

def Endpoint.serve : Endpoint → Store → ListJobsQuery → ListJobsResponse
  | .jobs => listJobs
  | .dlq => listDlq

/-- The status that an endpoint filters by. -/
def Endpoint.status : Endpoint → ListJobsQuery → Option String
  | .jobs, q => q.status
  | .dlq, _ => some "dlq"

/-! ## The client -/

/-- The request for the page after a response. -/
def ListJobsQuery.following (q : ListJobsQuery) (response : ListJobsResponse) : ListJobsQuery :=
  { q with cursorCreatedAt := response.nextCursorCreatedAt, cursorId := response.nextCursorId }

/-- The pages that a client gets, where its requests meet these states of the database one after the other. -/
def browse (e : Endpoint) : ListJobsQuery → List Store → List (List JobListItem)
  | _, [] => []
  | q, s :: later =>
      let response := e.serve s q
      if response.items = [] then [[]] else response.items :: browse e (q.following response) later

/-- A job in the queue that is asked for, below the cursor of the first request. -/
def ListJobsQuery.asksFor (q : ListJobsQuery) (r : JobRow) : Prop :=
  q.queue.all (fun queue => r.queue == queue) = true ∧
    Pages.Beyond Older (cursorOf q.cursorCreatedAt q.cursorId) (r.createdAt, r.id)

/-- A job of the status that is asked for. -/
def Endpoint.admits (e : Endpoint) (q : ListJobsQuery) (r : JobRow) : Bool :=
  (e.status q).all (fun status => r.status == status)

/-- What the pages of a client have to do with the states that its requests met. -/
structure Browsed (e : Endpoint) (q : ListJobsQuery) (states : List Store) (pages : List (List JobListItem)) :
    Prop where
  once : (pages.flatten.map (·.id)).Nodup
  descending : pages.flatten.Pairwise (fun a b => Older a.cursorKey b.cursorKey)
  current : ∀ (i : Nat) (page : List JobListItem), pages[i]? = some page → ∃ s, states[i]? = some s ∧ ∀ item ∈ page,
    ∃ r, (s.jobs.cell item.id).committed = some r ∧ jobListItem r = item ∧ q.asksFor r ∧ e.admits q r = true
  complete : [] ∈ pages → ∀ s, states.head? = some s → ∀ id r, (s.jobs.cell id).committed = some r → q.asksFor r →
    (∀ s' ∈ states, ∀ r', (s'.jobs.cell id).committed = some r' → e.admits q r' = true) →
    ∃ item ∈ pages.flatten, item.id = id
  ends : ∀ s, states.getLast? = some s → s.committedJobs.length + 1 < states.length → [] ∈ pages

/-! ## One client as a reader of pages -/

section Reader

variable {e : Endpoint} {q : ListJobsQuery} {s : Store}

/-- What a request with a cursor is answered with. -/
def fetch (e : Endpoint) (q : ListJobsQuery) (s : Store) (c : Option (DateTime × Uuid)) : List JobListItem :=
  Postgres.listJobs s.committedJobs q.queue (e.status q) (q.limit.getD 100) (c.map (·.1)) (c.map (·.2))

@[simp] theorem cursorOf_map (c : Option (DateTime × Uuid)) : cursorOf (c.map (·.1)) (c.map (·.2)) = c := by
  cases c <;> rfl

/-- Half a cursor is answered as none. -/
theorem serve_items (e : Endpoint) (q : ListJobsQuery) (s : Store) :
    (e.serve s q).items = fetch e q s (cursorOf q.cursorCreatedAt q.cursorId) := by
  cases e <;> simp [Endpoint.serve, listDlq, listJobs, fetch, Endpoint.status, listJobs_select]

/-- The response names its last item as the next cursor. -/
theorem serve_next {item : JobListItem} (h : (e.serve s q).items.getLast? = some item) :
    cursorOf (e.serve s q).nextCursorCreatedAt (e.serve s q).nextCursorId = some item.cursorKey := by
  cases e <;> simp only [Endpoint.serve, listDlq, listJobs] at h ⊢ <;> rw [h] <;> rfl

/-- By induction on the states that the requests meet. -/
theorem browse_eq (e : Endpoint) (q : ListJobsQuery) (states : List Store) :
    browse e q states =
      Keyset.read (fetch e q) JobListItem.cursorKey (cursorOf q.cursorCreatedAt q.cursorId) states := by
  induction states generalizing q with
  | nil => rfl
  | cons s later ih =>
      simp only [browse, Keyset.read]
      rw [← serve_items]
      cases hlast : (e.serve s q).items.getLast? with
      | none =>
          have hnil := List.getLast?_eq_none_iff.mp hlast
          rw [if_pos hnil, hnil]
      | some item =>
          have hne : (e.serve s q).items ≠ [] := by
            intro hnil
            rw [hnil] at hlast
            cases hlast
          have hfetch : fetch e (q.following (e.serve s q)) = fetch e q := by cases e <;> rfl
          rw [if_neg hne, ih, hfetch]
          simp only [ListJobsQuery.following, serve_next hlast]

/-- A request is answered with the first items of a listing beyond its cursor. -/
theorem serves (h : s.jobs.Listed) :
    Keyset.Serves Older JobListItem.cursorKey (pageSize (q.limit.getD 100))
      (fun s => jobListing q.queue (e.status q) s.committedJobs) (fetch e q) s where
  sorted := jobListing_sorted (committedJobs_ids_nodup h)
  page c := by rw [fetch, listJobs_eq (committedJobs_ids_nodup h), cursorOf_map]

end Reader

/-! ## The law -/

section Law

variable {first : HistoryPool} {later : List HistoryPool} {s s' : HistoryPool} {e : Endpoint} {q : ListJobsQuery}

/-- The client begins at a state that can be reached, and each of its requests is later than the one before. -/
structure Moments (first : HistoryPool) (later : List HistoryPool) : Prop where
  start : historySystem.Reachable first
  chain : (first :: later).IsChain Later

theorem Moments.laterFirst (h : Moments first later) (hs : s ∈ later) : Later first s :=
  (List.pairwise_cons.mp (List.isChain_iff_pairwise.mp h.chain)).1 s hs

theorem Moments.reachable (h : Moments first later) (hs : s ∈ first :: later) : historySystem.Reachable s := by
  rcases List.mem_cons.mp hs with rfl | hs
  · exact h.start
  · exact (h.laterFirst hs).reachable h.start

theorem Moments.jobsListed (h : Moments first later) : ∀ s ∈ (first :: later).map (·.store), s.jobs.Listed := by
  intro s hs
  obtain ⟨pool, hpool, rfl⟩ := List.mem_map.mp hs
  exact reachable_listed (h.reachable hpool)

/-- A job that is committed at one of the requests is so at the last one. -/
theorem Moments.lastJob (h : Moments first later) (hs : s ∈ first :: later) {last : HistoryPool}
    (hlast : (first :: later).getLast? = some last) {id : Uuid} {r : JobRow}
    (hr : (s.store.jobs.cell id).committed = some r) :
    ∃ r', (last.store.jobs.cell id).committed = some r' ∧ r'.request = r.request := by
  obtain ⟨front, hfront⟩ := List.getLast?_eq_some_iff.mp hlast
  have hpair := List.isChain_iff_pairwise.mp h.chain
  have hreach := h.reachable hs
  rw [hfront] at hpair hs
  rcases List.mem_append.mp hs with hs | hs
  · have hlater : Later s last := (List.pairwise_append.mp hpair).2.2 s hs last (List.mem_singleton_self last)
    exact hlater.job hreach hr
  · rw [← List.mem_singleton.mp hs]
    exact ⟨r, hr, rfl⟩

/-- Any two of the states that the client meets agree on what was asked for with a job. -/
theorem Moments.sameRequest (h : Moments first later) (hs : s ∈ first :: later) (hs' : s' ∈ first :: later) {id : Uuid}
    {r r' : JobRow} (hr : (s.store.jobs.cell id).committed = some r)
    (hr' : (s'.store.jobs.cell id).committed = some r') : r.request = r'.request := by
  have hlast := List.getLast?_eq_some_getLast (List.cons_ne_nil first later)
  obtain ⟨r₁, hr₁, hsame⟩ := h.lastJob hs hlast hr
  obtain ⟨r₂, hr₂, hsame'⟩ := h.lastJob hs' hlast hr'
  rw [hr₁] at hr₂
  cases hr₂
  exact hsame.symm.trans hsame'

/-- A page is a page of the listing of its moment. -/
theorem Moments.page (h : Moments first later) {i : Nat} {page : List JobListItem}
    (hpage : (browse e q ((first :: later).map (·.store)))[i]? = some page) :
    ∃ s ∈ first :: later, ((first :: later).map (·.store))[i]? = some s.store ∧ ∀ item ∈ page,
      ∃ r, (s.store.jobs.cell item.id).committed = some r ∧ listed q.queue (e.status q) r.toJob = true ∧
        jobListItem r = item := by
  rw [browse_eq] at hpage
  obtain ⟨store, hstore, hall⟩ := Keyset.read_sound (fun s hs => serves (h.jobsListed s hs)) hpage
  obtain ⟨s, hs, rfl⟩ := List.mem_map.mp (List.mem_of_getElem? hstore)
  refine ⟨s, hs, hstore, fun item hitem => ?_⟩
  obtain ⟨r, hr, hlisted, rfl⟩ := mem_jobListing.mp (hall item hitem)
  exact ⟨r, (mem_committedJobs (reachable_listed (h.reachable hs))).mp hr, hlisted, rfl⟩

/-- An item of the pages is a job as it was at one of the requests. -/
theorem Moments.item (h : Moments first later) {item : JobListItem}
    (hitem : item ∈ (browse e q ((first :: later).map (·.store))).flatten) :
    ∃ s ∈ first :: later, ∃ r, (s.store.jobs.cell item.id).committed = some r ∧ jobListItem r = item := by
  obtain ⟨page, hpage, hin⟩ := List.mem_flatten.mp hitem
  obtain ⟨i, hi⟩ := List.mem_iff_getElem?.mp hpage
  obtain ⟨s, hs, _, hall⟩ := h.page hi
  obtain ⟨r, hr, _, heq⟩ := hall item hin
  exact ⟨s, hs, r, hr, heq⟩

/-- **Paging through running jobs.** Whatever runs between the requests of a client: no job is on two pages, and the
    pages go down by `created_at` and id; an item is a job as it was committed when its page was read; a job that was
    committed at the first request, is asked for and is never of another status than the one that is asked for, is on a
    page when the client comes to the empty page; and it does, if it may ask twice more than there are jobs in the
    end. -/
theorem browse_law (h : Moments first later) (e : Endpoint) (q : ListJobsQuery) :
    Browsed e q ((first :: later).map (·.store)) (browse e q ((first :: later).map (·.store))) := by
  have hserves := fun s hs => serves (e := e) (q := q) (h.jobsListed s hs)
  have hsorted : (browse e q ((first :: later).map (·.store))).flatten.Pairwise
      (fun a b => Older a.cursorKey b.cursorKey) := by
    rw [browse_eq]
    exact Keyset.read_sorted hserves
  refine ⟨?_, hsorted, ?_, ?_, ?_⟩
  · refine List.pairwise_map.mpr (hsorted.imp_of_mem fun {a b} ha hb hold hid => ?_)
    -- one id, so one `created_at`, whenever it was read
    obtain ⟨s, hs, r, hr, rfl⟩ := h.item ha
    obtain ⟨s', hs', r', hr', rfl⟩ := h.item hb
    rw [← hid] at hr'
    have hcreated : r.createdAt = r'.createdAt := congrArg (·.createdAt) (h.sameRequest hs hs' hr hr')
    have hkey : (jobListItem r).cursorKey = (jobListItem r').cursorKey := Prod.ext hcreated hid
    rw [hkey] at hold
    exact irrefl _ hold
  · intro i page hpage
    obtain ⟨s, _, hs, hall⟩ := h.page hpage
    refine ⟨s.store, hs, fun item hitem => ?_⟩
    obtain ⟨r, hr, hlisted, rfl⟩ := hall item hitem
    have hin : jobListItem r ∈ (browse e q ((first :: later).map (·.store))).flatten :=
      List.mem_flatten.mpr ⟨page, List.mem_of_getElem? hpage, hitem⟩
    rw [browse_eq] at hin
    have hbeyond : Pages.Beyond Older (cursorOf q.cursorCreatedAt q.cursorId) (jobListItem r).cursorKey :=
      Keyset.read_beyond hserves hin
    obtain ⟨hqueue, hstatus⟩ := Bool.and_eq_true_iff.mp hlisted
    exact ⟨r, hr, rfl, ⟨hqueue, hbeyond⟩, hstatus⟩
  · intro hend store hstore id r hr hasked hadmits
    cases hstore
    rw [browse_eq] at hend ⊢
    obtain ⟨item, hitem, hkey⟩ := Keyset.read_complete (pageSize_pos _) hserves hend hasked.2 fun store hstore => by
      obtain ⟨s, hs, rfl⟩ := List.mem_map.mp hstore
      obtain ⟨r', hr', hsame⟩ : ∃ r', (s.store.jobs.cell id).committed = some r' ∧ r'.request = r.request := by
        rcases List.mem_cons.mp hs with rfl | hs
        · exact ⟨r, hr, rfl⟩
        · exact (h.laterFirst hs).job h.start hr
      have hid : r'.id = id := s.store.jobs.keyed id r' hr'
      have hlisted : listed q.queue (e.status q) r'.toJob = true := by
        have hqueue : r'.queue = r.queue := congrArg (·.queue) hsame
        refine Bool.and_eq_true_iff.mpr ⟨?_, hadmits _ hstore r' hr'⟩
        rw [hqueue]
        exact hasked.1
      refine ⟨jobListItem r', mem_jobListing.mpr ⟨r', ?_, hlisted, rfl⟩, ?_⟩
      · rw [mem_committedJobs (reachable_listed (h.reachable hs)), hid]
        exact hr'
      · have hcreated : r'.createdAt = r.createdAt := congrArg (·.createdAt) hsame
        exact Prod.ext hcreated (congrArg (·.id) hsame)
    refine ⟨item, hitem, ?_⟩
    rw [← first.store.jobs.keyed id r hr]
    exact congrArg Prod.snd hkey
  · intro store hstore hlong
    rw [List.getLast?_map] at hstore
    obtain ⟨last, hlast, rfl⟩ := Option.map_eq_some_iff.mp hstore
    rw [browse_eq]
    -- a job that was there at some request is there at the last one, with the same `created_at`
    have hkeys : ∀ store ∈ (first :: later).map (·.store),
        ∀ item ∈ jobListing q.queue (e.status q) store.committedJobs,
          item.cursorKey ∈ last.store.committedJobs.map (fun r => (r.createdAt, r.id)) := by
      intro store hstore item hitem
      obtain ⟨s, hs, rfl⟩ := List.mem_map.mp hstore
      obtain ⟨r, hr, _, rfl⟩ := mem_jobListing.mp hitem
      obtain ⟨r', hr', hsame⟩ := h.lastJob hs hlast ((mem_committedJobs (reachable_listed (h.reachable hs))).mp hr)
      have hid : r'.id = r.id := congrArg (·.id) hsame
      have hcreated : r'.createdAt = r.createdAt := congrArg (·.createdAt) hsame
      have hreach := h.reachable (List.mem_of_getLast? hlast)
      refine List.mem_map.mpr ⟨r', (mem_committedJobs (reachable_listed hreach)).mpr ?_, Prod.ext hcreated hid⟩
      rw [hid]
      exact hr'
    refine Keyset.read_ends hserves hkeys ?_
    rw [List.length_map]
    exact hlong

end Law

/-! ### A job that is canceled between two pages -/

/-- Two jobs of one instant under the lease of `w1`, and no client of the database. -/
def runningPool : HistoryPool := { store := twoLeased.pool.store, client := fun _ => none }

/-- `w1` cancels job 1. -/
def cancellation : List (Move ClientId HistoryTx) :=
  [.start 0 (.ofCall (.cancelJob 50 1 (some "w1"))), .exec 0, .exec 0, .exec 0, .exec 0, .finish 0]

def canceledPool : HistoryPool := (runningPool.run statementServer HistoryTx.program cancellation).getD runningPool

/-- All jobs, one a page. -/
def oneByOne : ListJobsQuery :=
  { queue := none, status := none, limit := some 1, cursorCreatedAt := none, cursorId := none }

/-- The later id comes first, while it runs; the other job is canceled by then. -/
theorem browse_law_tied :
    let pages := browse .jobs oneByOne [runningPool.store, canceledPool.store, canceledPool.store]
    Browsed .jobs oneByOne [runningPool.store, canceledPool.store, canceledPool.store] pages ∧
      pages.map (·.map (fun item => (item.id, item.status))) = [[(2, "running")], [(1, "canceled")], []] := by
  have hcancel : Later runningPool canceledPool := ⟨cancellation, Pool.run_system cancellation rfl⟩
  have hmoments : Moments runningPool [canceledPool, canceledPool] :=
    ⟨.start ⟨⟨_, rfl⟩, fun _ => rfl⟩, .cons_cons hcancel (.cons_cons ⟨[], .nil _⟩ (.singleton _))⟩
  exact ⟨browse_law hmoments .jobs oneByOne, by decide⟩

end Azums.Dashboard
