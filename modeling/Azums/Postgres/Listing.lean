import Azums.Core.Listing
import Azums.Lib.Keyset
import Azums.Postgres.History
import Mathlib.Data.List.Dedup

/-!
# `Postgres.Listing` — `list_jobs` of the PostgreSQL backend

`JobsRepo::list_jobs` has a statement for each combination of filters, with and without a cursor. `listJobs_eq` says
what the eight have in common: each answers with the first rows of one listing beyond one cursor. It reads what is
committed, in one statement of its own, while transactions are open (`Store.committedJobs`). The time of a cursor is the
value as it is bound, a `timestamptz`: a client gives back what it read, and finer digits than microseconds are gone
before the statement compares.
-/

namespace Azums.Postgres

/-! ## The statements -/

/-- The columns that the statements select. -/
def jobListItem (r : JobRow) : JobListItem :=
  { listItem r.toJob with lastErrorCode := r.lastErrorCode, lastErrorMessage := r.lastErrorMessage }

/-- `SELECT … WHERE p ORDER BY created_at DESC, id DESC LIMIT limit`. -/
def selectItems (rows : List JobRow) (limit : Nat) (p : JobRow → Bool) : List JobListItem :=
  (((rows.filter p).map jobListItem).insertionSort NewestFirst).take limit

/-- `(created_at, id) < (ca, cid)`, for the bound value `ca`. -/
def rowBefore (ca : DateTime) (cid : Uuid) (r : JobRow) : Bool :=
  decide (r.createdAt < ca) || (r.createdAt == ca && decide (r.id < cid))

/-- `JobsRepo::list_jobs`, over the committed rows; `cursorCreatedAt` is the bound value. -/
def listJobs (rows : List JobRow) (queue status : Option String) (limit : Int)
    (cursorCreatedAt : Option DateTime) (cursorId : Option Uuid) : List JobListItem :=
  let limit := pageSize limit
  match queue, status, cursorCreatedAt, cursorId with
  | some q, some st, some ca, some cid =>
      selectItems rows limit (fun r => r.queue == q && r.status == st && rowBefore ca cid r)
  | some q, some st, _, _ => selectItems rows limit (fun r => r.queue == q && r.status == st)
  | some q, none, some ca, some cid => selectItems rows limit (fun r => r.queue == q && rowBefore ca cid r)
  | some q, none, _, _ => selectItems rows limit (fun r => r.queue == q)
  | none, some st, some ca, some cid => selectItems rows limit (fun r => r.status == st && rowBefore ca cid r)
  | none, some st, _, _ => selectItems rows limit (fun r => r.status == st)
  | none, none, some ca, some cid => selectItems rows limit (rowBefore ca cid)
  | none, none, _, _ => selectItems rows limit (fun _ => true)

/-! ## One listing -/

/-- The items of the jobs that a request asks for, newest first. -/
def jobListing (queue status : Option String) (rows : List JobRow) : List JobListItem :=
  ((rows.filter (fun r => listed queue status r.toJob)).map jobListItem).insertionSort NewestFirst

/-- The cursor of a request: a half is none. -/
def cursorOf : Option DateTime → Option Uuid → Option (DateTime × Uuid)
  | some ca, some cid => some (ca, cid)
  | _, _ => none

/-- A row passes the cursor where its item is listed below it. -/
def rowBeyond (c : Option (DateTime × Uuid)) (r : JobRow) : Bool :=
  decide (Pages.Beyond Older c (r.createdAt, r.id))

@[simp] theorem rowBeyond_none (r : JobRow) : rowBeyond none r = true := decide_eq_true trivial

@[simp] theorem rowBeyond_some (ca : DateTime) (cid : Uuid) (r : JobRow) :
    rowBeyond (some (ca, cid)) r = rowBefore ca cid r := by
  rw [Bool.eq_iff_iff, rowBeyond, decide_eq_true_iff]
  simp [rowBefore, Pages.Beyond, Older]

/-- **The eight statements are one**: the filters that are given, and the cursor where it is whole. -/
theorem listJobs_select (rows : List JobRow) (queue status : Option String) (limit : Int)
    (cursorCreatedAt : Option DateTime) (cursorId : Option Uuid) :
    listJobs rows queue status limit cursorCreatedAt cursorId = selectItems rows (pageSize limit)
      (fun r => rowBeyond (cursorOf cursorCreatedAt cursorId) r && listed queue status r.toJob) := by
  cases queue <;> cases status <;> cases cursorCreatedAt <;> cases cursorId <;>
    simp [listJobs, cursorOf, listed, Bool.and_comm]

section Listing

variable {rows : List JobRow} {queue status : Option String}

theorem mem_jobListing {item : JobListItem} :
    item ∈ jobListing queue status rows ↔
      ∃ r ∈ rows, listed queue status r.toJob = true ∧ jobListItem r = item := by
  simp only [jobListing, List.mem_insertionSort, List.mem_map, List.mem_filter, and_assoc]

/-- Rows with ids of their own make items that do not tie. -/
theorem jobListing_antisymm (h : (rows.map (·.id)).Nodup) (p : JobRow → Bool) :
    ∀ a ∈ (rows.filter p).map jobListItem, ∀ b ∈ (rows.filter p).map jobListItem,
      NewestFirst a b → NewestFirst b a → a = b := by
  have hids : (((rows.filter p).map jobListItem).map (·.id)).Nodup := by
    rw [List.map_map]
    exact h.sublist (List.filter_sublist.map _)
  intro a ha b hb hab hba
  refine List.inj_on_of_nodup_map hids ha hb ?_
  simp only [NewestFirst, DateTime, Uuid] at hab hba ⊢
  omega

/-- The listing descends strictly. -/
theorem jobListing_sorted (h : (rows.map (·.id)).Nodup) :
    (jobListing queue status rows).Pairwise (fun a b => Older a.cursorKey b.cursorKey) := by
  have hids : ((jobListing queue status rows).map (·.id)).Nodup := by
    refine ((List.perm_insertionSort _ _).map _).nodup_iff.mpr ?_
    rw [List.map_map]
    exact h.sublist (List.filter_sublist.map _)
  have hsorted : (jobListing queue status rows).Pairwise NewestFirst := List.pairwise_insertionSort ..
  refine (hsorted.and (List.pairwise_map.mp hids)).imp ?_
  rintro a b ⟨hab, hid⟩
  exact (newestFirst_iff.mp hab).resolve_right fun heq => hid (congrArg Prod.snd heq)

/-- **A page** is the beginning of the listing beyond the cursor. -/
theorem listJobs_eq (h : (rows.map (·.id)).Nodup) (limit : Int) (cursorCreatedAt : Option DateTime)
    (cursorId : Option Uuid) :
    listJobs rows queue status limit cursorCreatedAt cursorId =
      (Pages.rest Older JobListItem.cursorKey (jobListing queue status rows)
        (cursorOf cursorCreatedAt cursorId)).take (pageSize limit) := by
  have hsplit : (rows.filter (fun r =>
      rowBeyond (cursorOf cursorCreatedAt cursorId) r && listed queue status r.toJob)).map jobListItem =
      ((rows.filter (fun r => listed queue status r.toJob)).map jobListItem).filter
        (fun item => decide (Pages.Beyond Older (cursorOf cursorCreatedAt cursorId) item.cursorKey)) := by
    rw [← List.filter_filter, List.filter_map]
    rfl
  rw [listJobs_select, selectItems, hsplit, OrderBy.insertionSort_filter _ (jobListing_antisymm h _)]
  rfl

end Listing

/-! ## What a statement sees while transactions are open -/

/-- The committed jobs, each once. -/
def Store.committedJobs (s : Store) : List JobRow := s.jobs.committedRows.dedup

/-- The rows are under their ids. -/
theorem mem_committedJobs {s : Store} (h : s.jobs.Listed) {r : JobRow} :
    r ∈ s.committedJobs ↔ (s.jobs.cell r.id).committed = some r := by
  rw [Store.committedJobs, List.mem_dedup, Versions.committedRows, List.mem_filterMap]
  constructor
  · rintro ⟨id, _, hr⟩
    have hid : r.rowId = id := s.jobs.keyed id r hr
    rw [show r.id = id from hid]
    exact hr
  · intro hr
    refine ⟨r.id, ?_, hr⟩
    by_contra hout
    rw [h r.id hout] at hr
    cases hr

theorem committedJobs_ids_nodup {s : Store} (h : s.jobs.Listed) : (s.committedJobs.map (·.id)).Nodup := by
  refine (List.nodup_map_iff_inj_on (List.nodup_dedup _)).mpr fun r hr r' hr' hid => ?_
  have hcell := (mem_committedJobs h).mp hr
  rw [hid, (mem_committedJobs h).mp hr'] at hcell
  exact (Option.some.inj hcell).symm

/-- A statement lists the keys that it writes under. -/
theorem exec_listed {i : ClientId} {s s' : Store} {c : Statement} {r : c.Reply} (h : s.jobs.Listed)
    (hexec : c.exec i s = some (r, s')) : s'.jobs.Listed := by
  cases c with
  | startAttempt row =>
      obtain ⟨attempts, _, heq⟩ := Option.map_eq_some_iff.mp hexec
      cases heq
      exact h
  | job c =>
      cases c with
      | select =>
          cases hexec
          exact h
      | updateJobs p f =>
          obtain ⟨answer, hupd, heq⟩ := Option.map_eq_some_iff.mp hexec
          cases heq
          exact h.wrote (Versions.update_wrote hupd) (Versions.update_keys hupd)
      | claimJobs choose f =>
          cases hexec
          exact h.wrote Versions.claim_wrote rfl
      | updateAttempts p fits f =>
          simp only [Statement.exec, Stmt.exec] at hexec
          split at hexec
          · obtain ⟨answer, _, heq⟩ := Option.map_eq_some_iff.mp hexec
            cases heq
            exact h
          · cases hexec
            exact h
      | insertJob row =>
          obtain ⟨jobs, hins, heq⟩ := Option.map_eq_some_iff.mp hexec
          cases heq
          exact h.insert hins
      | insertDecision decision =>
          obtain ⟨decisions, _, heq⟩ := Option.map_eq_some_iff.mp hexec
          cases heq
          exact h

/-- Whatever transactions run, a scan of `jobs` finds every row. -/
theorem reachable_listed {s : HistoryPool} (hs : historySystem.Reachable s) : s.store.jobs.Listed := by
  refine hs.invariant (I := fun s => s.store.jobs.Listed) ?_ ?_
  · rintro s ⟨⟨db, hdb⟩, _⟩
    rw [hdb]
    exact Versions.ofRows_listed _ _
  · intro s move s' _ h hstep
    cases move with
    | start i tx =>
        obtain ⟨_, rfl⟩ := Pool.next_start hstep
        exact h
    | exec i =>
        obtain ⟨_, _, _, _, _, _, hexec, rfl⟩ := Pool.next_exec hstep
        exact exec_listed h hexec
    | finish i =>
        obtain ⟨_, outcome, _, rfl⟩ := Pool.next_finish hstep
        cases outcome with
        | ok answer => exact h.commit
        | err message => exact h.rollback
        | panic => exact h.rollback
    | crash i =>
        obtain ⟨_, rfl⟩ := Pool.next_crash hstep
        exact h.rollback

/-! ## Jobs over a run -/

/-- The second state is reached from the first. -/
def Later (s s' : HistoryPool) : Prop := ∃ moves, historySystem.Run s moves s'

theorem Later.reachable {s s' : HistoryPool} (h : Later s s') (hs : historySystem.Reachable s) :
    historySystem.Reachable s' := by
  obtain ⟨_, hrun⟩ := h
  exact hs.run hrun

instance : IsTrans HistoryPool Later where
  trans _ _ _ := by
    rintro ⟨_, h⟩ ⟨_, h'⟩
    exact ⟨_, h.append h'⟩

/-- A job that is committed stays committed, as it was asked for. -/
theorem Later.job {s s' : HistoryPool} (h : Later s s') (hs : historySystem.Reachable s) {id : Uuid} {r : JobRow}
    (hr : (s.store.jobs.cell id).committed = some r) :
    ∃ r', (s'.store.jobs.cell id).committed = some r' ∧ r'.request = r.request := by
  obtain ⟨_, hrun⟩ := h
  exact (history_kept hs hrun).jobs id r hr

end Azums.Postgres
