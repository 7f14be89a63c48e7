import Azums.Core.Listing
import Azums.Lib.Pages
import Azums.Memory.Run

/-!
# `Memory.Listing` — `list_jobs` of the memory backend

A page of the listing is what a filter, a cursor, a sort and a truncation leave of the job map. `list_jobs_pages` is
what they are together: a client that pages through an unchanged store reads every job that it asked for, once, in
the order of the listing, and stops.
-/

namespace Azums.Memory

variable {s : InnerState} {order order' : List Uuid} {queue status : Option String} {limit : Int}

/-! ## The operation -/

/-- The cursor of a request. It cuts only where both halves are given. -/
def beforeCursor (cursorCreatedAt : Option DateTime) (cursorId : Option Uuid) (item : JobListItem) : Bool :=
  match cursorCreatedAt, cursorId with
  | some createdAt, some id =>
      decide (item.createdAt < createdAt) || (item.createdAt == createdAt && decide (item.id < id))
  | _, _ => true

/-- `list_jobs`; `order` is the order in which `jobs.values()` yields the jobs. -/
def listJobs (s : InnerState) (order : List Uuid) (queue status : Option String) (limit : Int)
    (cursorCreatedAt : Option DateTime) (cursorId : Option Uuid) : List JobListItem :=
  let items := (((order.filterMap s.jobs).filter (listed queue status)).map listItem).filter
    (beforeCursor cursorCreatedAt cursorId)
  (items.insertionSort NewestFirst).take (pageSize limit)

/-! ## Jobs in the order of the map -/

/-- Every job is stored under its own id. -/
def OwnIds (s : InnerState) : Prop := ∀ id job, s.jobs id = some job → job.id = id

theorem map_id_filterMap (hown : OwnIds s) (ids : List Uuid) (hall : ∀ id ∈ ids, (s.jobs id).isSome) :
    (ids.filterMap s.jobs).map (·.id) = ids := by
  induction ids with
  | nil => rfl
  | cons id rest ih =>
      obtain ⟨job, hjob⟩ := Option.isSome_iff_exists.mp (hall id List.mem_cons_self)
      rw [List.filterMap_cons_some hjob, List.map_cons, hown id job hjob,
        ih fun id' hid' => hall id' (List.mem_cons_of_mem _ hid')]

/-- The jobs of the map, in any order, have ids of their own. -/
theorem ordered_ids_nodup (hown : OwnIds s) (ho : Enumerates s.jobs order) :
    ((order.filterMap s.jobs).map (·.id)).Nodup := by
  rw [map_id_filterMap hown order fun id hid => (ho.complete id).mp hid]
  exact ho.nodup

theorem mem_ordered (hown : OwnIds s) (ho : Enumerates s.jobs order) {job : Job} :
    job ∈ order.filterMap s.jobs ↔ s.jobs job.id = some job := by
  rw [List.mem_filterMap]
  constructor
  · rintro ⟨id, _, hjob⟩
    rw [hown id job hjob]
    exact hjob
  · intro hjob
    exact ⟨job.id, (ho.complete _).mpr (by rw [hjob]; rfl), hjob⟩

/-- Two orders of the map yield the same jobs. -/
theorem ordered_perm (ho : Enumerates s.jobs order) (ho' : Enumerates s.jobs order') :
    (order.filterMap s.jobs).Perm (order'.filterMap s.jobs) := by
  refine List.Perm.filterMap _ ((List.perm_ext_iff_of_nodup ho.nodup ho'.nodup).mpr fun id => ?_)
  rw [ho.complete, ho'.complete]

/-! ## A page of the listing -/

/-- A complete cursor lets pass what is listed below it. -/
theorem beforeCursor_eq (c : Option (DateTime × Uuid)) (item : JobListItem) :
    beforeCursor (c.map (·.1)) (c.map (·.2)) item = decide (Pages.Beyond Older c item.cursorKey) := by
  cases c with
  | none => exact (decide_eq_true (trivial : Pages.Beyond Older none item.cursorKey)).symm
  | some c =>
      rw [Bool.eq_iff_iff, decide_eq_true_iff]
      simp [beforeCursor, Pages.Beyond, Older, JobListItem.cursorKey]

/-- **A page.** The first items of the listing beyond the cursor. -/
theorem listJobs_eq (hown : OwnIds s) (ho : Enumerates s.jobs order) (c : Option (DateTime × Uuid)) :
    listJobs s order queue status limit (c.map (·.1)) (c.map (·.2)) =
      (Pages.rest Older JobListItem.cursorKey (listing queue status (order.filterMap s.jobs)) c).take
        (pageSize limit) := by
  have hcut : beforeCursor (c.map (·.1)) (c.map (·.2)) =
      fun item => decide (Pages.Beyond Older c item.cursorKey) := funext (beforeCursor_eq c)
  simp only [listJobs, hcut, Pages.rest]
  exact congrArg (List.take (pageSize limit)) (sort_filter_selected (ordered_ids_nodup hown ho) _)

/-- The listing of the map is the list of the jobs that are asked for. -/
theorem listing_jobs (hown : OwnIds s) (ho : Enumerates s.jobs order) (queue status : Option String) :
    ∃ jobs : List Job, listing queue status (order.filterMap s.jobs) = jobs.map listItem ∧
      jobs.Pairwise (fun a b => Older (a.createdAt, a.id) (b.createdAt, b.id)) ∧
      ∀ job, job ∈ jobs ↔ s.jobs job.id = some job ∧ listed queue status job = true := by
  refine ⟨((order.filterMap s.jobs).filter (listed queue status)).insertionSort
    (fun a b => NewestFirst (listItem a) (listItem b)), ?_, ?_, fun job => ?_⟩
  · exact (List.map_insertionSort _ _ listItem _ fun _ _ _ _ => Iff.rfl).symm
  · have hsorted : (listing queue status (order.filterMap s.jobs)).Pairwise
        (fun a b => Older a.cursorKey b.cursorKey) := listing_sorted (ordered_ids_nodup hown ho)
    rw [listing, selected, ← List.map_insertionSort (fun a b => NewestFirst (listItem a) (listItem b)) NewestFirst
      listItem _ fun _ _ _ _ => Iff.rfl, List.pairwise_map] at hsorted
    exact hsorted
  · rw [List.mem_insertionSort, List.mem_filter, mem_ordered hown ho]

/-! ## Paging through a store -/

/-- **Paging is complete.** A client that asks for one page after the other, each time with the `created_at` and the id
    of the last item as its cursor, stops at an empty page. Its pages make up the list of the jobs that it asked for,
    each once, in descending order of `created_at` and id, and no page is longer than `limit` clamped to 1 to 500. The
    job map may yield its jobs in another order each time. -/
theorem list_jobs_pages (hown : OwnIds s) (queue status : Option String) (limit : Int)
    {fetch : Option (DateTime × Uuid) → List JobListItem}
    (hfetch : ∀ c, ∃ order, Enumerates s.jobs order ∧
      fetch c = listJobs s order queue status limit (c.map (·.1)) (c.map (·.2))) :
    ∃ pages, Pages.Walk fetch JobListItem.cursorKey none pages ∧
      (∀ pages', Pages.Walk fetch JobListItem.cursorKey none pages' → pages' = pages) ∧
      pages.getLast? = some [] ∧
      (∃ jobs : List Job, pages.flatten = jobs.map listItem ∧
        jobs.Pairwise (fun a b => Older (a.createdAt, a.id) (b.createdAt, b.id)) ∧
        ∀ job, job ∈ jobs ↔ s.jobs job.id = some job ∧ listed queue status job = true) ∧
      ∀ page ∈ pages, page.length ≤ pageSize limit := by
  obtain ⟨order, ho, _⟩ := hfetch none
  have hpage : ∀ c, fetch c = (Pages.rest Older JobListItem.cursorKey
      (listing queue status (order.filterMap s.jobs)) c).take (pageSize limit) := by
    intro c
    obtain ⟨order', ho', heq⟩ := hfetch c
    rw [heq, listJobs_eq hown ho', listing_perm (ordered_ids_nodup hown ho') (ordered_perm ho' ho)]
  obtain ⟨pages, hwalk, hflat, hlen⟩ := Pages.exists_walk (pageSize_pos limit)
    (listing_sorted (ordered_ids_nodup hown ho)) hpage none
  rw [Pages.rest_none] at hflat
  refine ⟨pages, hwalk, fun pages' hwalk' => hwalk'.unique hwalk, hwalk.getLast?, ?_, hlen⟩
  rw [hflat]
  exact listing_jobs hown ho queue status

/-- The jobs of a reachable state are stored under their own ids. -/
theorem reachable_ownIds (h : memorySystem.Reachable s) : OwnIds s := (reachable_wellFormed h).jobId

/-- Two jobs enqueued in the same instant, read one at a time: three requests, and the later id first. -/
theorem list_jobs_pages_tied :
    let s := ((MemOp.enqueue 5 8 [7] welcomeEmail).apply
      ((MemOp.enqueue 5 7 [] welcomeEmail).apply InnerState.init).2).2
    ∃ pages, Pages.Walk (fun c => listJobs s [7, 8] none none 1 (c.map (·.1)) (c.map (·.2))) JobListItem.cursorKey
      none pages ∧ pages.map (·.map (·.id)) = [[8], [7], []] := by
  intro s
  obtain ⟨hfirst, hseven⟩ := enqueue_reachable (.start rfl) enumerates_nil 5 7 welcomeEmail ⟨rfl, rfl⟩ rfl
  obtain ⟨hreach, hboth⟩ := enqueue_reachable hfirst hseven 5 8 welcomeEmail ⟨rfl, rfl⟩ rfl
  have horder : Enumerates s.jobs [7, 8] := hboth.perm (.swap 7 8 [])
  have hfetch : ∀ c : Option (DateTime × Uuid), ∃ order, Enumerates s.jobs order ∧
      listJobs s [7, 8] none none 1 (c.map (·.1)) (c.map (·.2)) =
        listJobs s order none none 1 (c.map (·.1)) (c.map (·.2)) := fun c => ⟨[7, 8], horder, rfl⟩
  obtain ⟨pages, hwalk, huniq, _⟩ := list_jobs_pages (reachable_ownIds hreach) none none 1 hfetch
  refine ⟨pages, hwalk, ?_⟩
  have hrun : Pages.Walk (fun c => listJobs s [7, 8] none none 1 (c.map (·.1)) (c.map (·.2))) JobListItem.cursorKey
      none [_, _, []] := .more rfl (.more rfl (.done rfl))
  rw [← huniq _ hrun]
  rfl

end Azums.Memory
