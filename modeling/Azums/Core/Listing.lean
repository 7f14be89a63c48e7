import Azums.Core.Model
import Azums.Lib.OrderBy
import Mathlib.Order.Defs.Unbundled

/-!
# `Core.Listing` — the items of a job listing

`list_jobs` of every backend answers with `JobListItem`s: the stored jobs of a queue and a status, both optional, in
descending order of `created_at` and id, so many at a time. This is what the backends share: the item of a job, the
filter, the size of a page, and the order with its cursor keys.
-/

namespace Azums

/-- `JobListItem`. -/
structure JobListItem where
  id : Uuid
  idempotencyKey : Option String
  queue : String
  jobType : String
  status : String
  runAt : DateTime
  deadlineAt : Option DateTime
  timeoutSeconds : Option Int
  recurringIntervalSeconds : Option Int
  priority : Int
  maxAttempts : Int
  lastErrorCode : Option String
  lastErrorMessage : Option String
  dlqReasonCode : Option String
  createdAt : DateTime
  updatedAt : DateTime
deriving DecidableEq

/-- The item that the backends make of a stored job: no last error. -/
def listItem (job : Job) : JobListItem :=
  { id := job.id
    idempotencyKey := job.idempotencyKey
    queue := job.queue
    jobType := job.jobType
    status := job.status
    runAt := job.runAt
    deadlineAt := job.deadlineAt
    timeoutSeconds := job.timeoutSeconds
    recurringIntervalSeconds := job.recurringIntervalSeconds
    priority := job.priority
    maxAttempts := job.maxAttempts
    lastErrorCode := none
    lastErrorMessage := none
    dlqReasonCode := job.dlqReasonCode
    createdAt := job.createdAt
    updatedAt := job.updatedAt }

/-- The job has the queue and the status that are asked for. -/
def listed (queue status : Option String) (job : Job) : Bool :=
  queue.all (fun q => job.queue == q) && status.all (fun st => job.status == st)

/-- `limit.clamp(1, 500)`. -/
def pageSize (limit : Int) : Nat := (min (max limit 1) 500).toNat

theorem pageSize_pos (limit : Int) : 0 < pageSize limit := by
  unfold pageSize
  omega

/-! ## Cursor keys -/

/-- What a client hands back as its cursor. -/
def JobListItem.cursorKey (item : JobListItem) : DateTime × Uuid := (item.createdAt, item.id)

/-- `k'` is listed below `k`: `created_at` descending, then id descending. -/
def Older (k k' : DateTime × Uuid) : Prop := k'.1 < k.1 ∨ (k'.1 = k.1 ∧ k'.2 < k.2)

instance : DecidableRel Older := fun _ _ => inferInstanceAs (Decidable (_ ∨ _))

instance : IsStrictOrder (DateTime × Uuid) Older where
  irrefl k := by simp [Older]
  trans a b c hab hbc := by
    simp only [Older, DateTime, Uuid] at hab hbc ⊢
    omega

/-- `b.created_at.cmp(&a.created_at).then_with(|| b.id.cmp(&a.id))` is not `Greater`. -/
def NewestFirst (a b : JobListItem) : Prop :=
  b.createdAt < a.createdAt ∨ (b.createdAt = a.createdAt ∧ b.id ≤ a.id)

instance : DecidableRel NewestFirst := fun _ _ => inferInstanceAs (Decidable (_ ∨ _))

instance : Std.Total NewestFirst where
  total a b := by
    simp only [NewestFirst, DateTime, Uuid]
    omega

instance : IsTrans JobListItem NewestFirst where
  trans a b c hab hbc := by
    simp only [NewestFirst, DateTime, Uuid] at hab hbc ⊢
    omega

theorem newestFirst_iff {a b : JobListItem} :
    NewestFirst a b ↔ Older a.cursorKey b.cursorKey ∨ a.cursorKey = b.cursorKey := by
  simp only [NewestFirst, Older, JobListItem.cursorKey, Prod.mk.injEq, DateTime, Uuid]
  omega

/-! ## The listing -/

/-- The items of the jobs that are asked for, in the order of the jobs. -/
def selected (queue status : Option String) (rows : List Job) : List JobListItem :=
  (rows.filter (listed queue status)).map listItem

/-- The whole listing of a store. -/
def listing (queue status : Option String) (rows : List Job) : List JobListItem :=
  (selected queue status rows).insertionSort NewestFirst

section

variable {queue status : Option String} {rows rows' : List Job} {item : JobListItem}

theorem mem_selected :
    item ∈ selected queue status rows ↔ ∃ job ∈ rows, listed queue status job = true ∧ listItem job = item := by
  simp only [selected, List.mem_map, List.mem_filter, and_assoc]

theorem mem_listing :
    item ∈ listing queue status rows ↔ ∃ job ∈ rows, listed queue status job = true ∧ listItem job = item := by
  rw [listing, List.mem_insertionSort, mem_selected]

/-- Jobs with ids of their own make items with ids of their own. -/
theorem selected_ids_nodup (h : (rows.map (·.id)).Nodup) : ((selected queue status rows).map (·.id)).Nodup := by
  rw [selected, List.map_map]
  exact h.sublist (List.filter_sublist.map _)

/-- No two of these items tie in the order of the listing. -/
theorem selected_antisymm (h : (rows.map (·.id)).Nodup) :
    ∀ a ∈ selected queue status rows, ∀ b ∈ selected queue status rows, NewestFirst a b → NewestFirst b a → a = b := by
  intro a ha b hb hab hba
  refine List.inj_on_of_nodup_map (selected_ids_nodup h) ha hb ?_
  simp only [NewestFirst, DateTime, Uuid] at hab hba ⊢
  omega

/-- Sorting a part of the items gives that part of the listing. -/
theorem sort_filter_selected (h : (rows.map (·.id)).Nodup) (p : JobListItem → Bool) :
    ((selected queue status rows).filter p).insertionSort NewestFirst = (listing queue status rows).filter p :=
  OrderBy.insertionSort_filter p (selected_antisymm h)

/-- The listing descends strictly. -/
theorem listing_sorted (h : (rows.map (·.id)).Nodup) :
    (listing queue status rows).Pairwise (fun a b => Older a.cursorKey b.cursorKey) := by
  have hids : ((listing queue status rows).map (·.id)).Nodup :=
    ((List.perm_insertionSort _ _).map _).nodup_iff.mpr (selected_ids_nodup h)
  have hne : (listing queue status rows).Pairwise (fun a b => a.id ≠ b.id) := List.pairwise_map.mp hids
  have hsorted : (listing queue status rows).Pairwise NewestFirst := List.pairwise_insertionSort ..
  refine (hsorted.and hne).imp ?_
  rintro a b ⟨hab, hid⟩
  refine (newestFirst_iff.mp hab).resolve_right fun heq => hid ?_
  exact congrArg Prod.snd heq

/-- The listing does not depend on the order in which the store yields its jobs. -/
theorem listing_perm (h : (rows.map (·.id)).Nodup) (hp : rows.Perm rows') :
    listing queue status rows = listing queue status rows' := by
  have hsel : (selected queue status rows).Perm (selected queue status rows') := (hp.filter _).map _
  have hperm : (listing queue status rows).Perm (listing queue status rows') :=
    ((List.perm_insertionSort _ _).trans hsel).trans (List.perm_insertionSort _ _).symm
  refine OrderBy.eq_of_sorted hperm (List.pairwise_insertionSort ..) (List.pairwise_insertionSort ..) ?_
  intro a ha b hb
  exact selected_antisymm h a ((List.mem_insertionSort _).mp ha) b ((List.mem_insertionSort _).mp hb)

end
end Azums
