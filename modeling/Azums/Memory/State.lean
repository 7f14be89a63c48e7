import Azums.Lib.OrdSet
import Azums.Core.Model

/-!
# `Memory.State` — the state of `MemoryBackend` and its lease index

`InnerState` is the structure behind the backend's `RwLock`: the job map, one ordered index of queued jobs
per queue (`BTreeSet<QueueEntry>`, an `OrdSet` here), the archive, the attempts with their counters, and the
streams. A `HashMap` is the function that looks a key up.

A `HashMap` yields its entries in an order nobody can predict. Where an operation's answer can depend on
that order, the operation takes it as an argument: a list of keys that `Enumerates` the map.
-/

namespace Azums.Memory

open Function (update)

/-- `ks` lists the keys of the map `m`, each once: an order `HashMap::values` may follow. -/
structure Enumerates {κ ν : Type} (m : κ → Option ν) (ks : List κ) : Prop where
  nodup : ks.Nodup
  complete : ∀ k, k ∈ ks ↔ (m k).isSome

/-- The order of an empty map. -/
theorem enumerates_nil {κ ν : Type} : Enumerates (fun _ : κ => (none : Option ν)) [] :=
  ⟨List.nodup_nil, fun k => by simp⟩

/-- The order of a map with one entry. -/
theorem enumerates_singleton {κ ν : Type} {m : κ → Option ν} {k : κ} (hk : (m k).isSome)
    (hrest : ∀ k', k' ≠ k → m k' = none) : Enumerates m [k] := by
  refine ⟨List.nodup_singleton k, fun k' => ?_⟩
  rw [List.mem_singleton]
  constructor
  · rintro rfl
    exact hk
  · intro h
    by_contra hne
    rw [hrest k' hne] at h
    cases h

/-- The entries of a map may come in any order. -/
theorem Enumerates.perm {κ ν : Type} {m : κ → Option ν} {ks ks' : List κ} (h : Enumerates m ks) (hp : ks.Perm ks') :
    Enumerates m ks' :=
  ⟨hp.nodup_iff.mp h.nodup, fun k => hp.mem_iff.symm.trans (h.complete k)⟩

/-- The order of a map with one more entry. -/
theorem Enumerates.insert {κ ν : Type} [DecidableEq κ] {m : κ → Option ν} {ks : List κ} (h : Enumerates m ks) {k : κ}
    (hk : m k = none) (v : ν) : Enumerates (update m k (some v)) (k :: ks) := by
  refine ⟨List.nodup_cons.mpr ⟨fun hin => ?_, h.nodup⟩, fun k' => ?_⟩
  · have hsome := (h.complete k).mp hin
    rw [hk] at hsome
    cases hsome
  · by_cases hk' : k' = k
    · simp [hk']
    · rw [List.mem_cons, Function.update_of_ne hk', h.complete]
      exact or_iff_right hk'

/-- An entry of a map after an insertion: the inserted one, or one that was there under another key. -/
theorem update_eq_some {κ ν : Type} [DecidableEq κ] {m : κ → Option ν} {k k' : κ} {v v' : ν}
    (h : update m k (some v) k' = some v') : k' = k ∧ v = v' ∨ k' ≠ k ∧ m k' = some v' := by
  by_cases hk : k' = k
  · subst hk
    rw [Function.update_self] at h
    exact Or.inl ⟨rfl, Option.some.inj h⟩
  · rw [Function.update_of_ne hk] at h
    exact Or.inr ⟨hk, h⟩

/-- `MemoryAttempt`: one handler attempt. -/
structure MemoryAttempt where
  id : Uuid
  datasetId : String
  jobId : Uuid
  attemptNo : Int
  status : String
  workerId : String
  startedAt : DateTime
  finishedAt : Option DateTime
  latencyMs : Option Int
  errorCode : Option String
  errorMessage : Option String
deriving DecidableEq

/-! ## The lease index -/

/-- `QueueEntry`: the sort key under which a queued job is indexed. -/
structure QueueEntry where
  priority : Int
  runAt : DateTime
  createdAt : DateTime
  id : Uuid
deriving DecidableEq

namespace QueueEntry

/-- `QueueEntry::from_job`. -/
def fromJob (job : Job) : QueueEntry :=
  { priority := job.priority, runAt := job.runAt, createdAt := job.createdAt, id := job.id }

@[simp] theorem fromJob_priority (job : Job) : (fromJob job).priority = job.priority := rfl
@[simp] theorem fromJob_runAt (job : Job) : (fromJob job).runAt = job.runAt := rfl
@[simp] theorem fromJob_createdAt (job : Job) : (fromJob job).createdAt = job.createdAt := rfl
@[simp] theorem fromJob_id (job : Job) : (fromJob job).id = job.id := rfl

/-- `Ord::cmp`: priority descending, then `run_at`, `created_at` and `id` ascending. -/
def cmp (self other : QueueEntry) : Ordering :=
  (compare other.priority self.priority).then
    ((compare self.runAt other.runAt).then
      ((compare self.createdAt other.createdAt).then (compare self.id other.id)))

/-- `cmp` is the lexicographic product of the four field orders, the first one reversed. -/
theorem cmp_eq_compareLex : cmp = compareLex (fun a b => compareOn QueueEntry.priority b a)
    (compareLex (compareOn QueueEntry.runAt)
      (compareLex (compareOn QueueEntry.createdAt) (compareOn QueueEntry.id))) := rfl

instance : Std.TransCmp cmp := by
  have hprio : Std.TransCmp (fun a b : QueueEntry => compareOn QueueEntry.priority b a) :=
    Std.TransCmp.opposite
  rw [cmp_eq_compareLex]
  infer_instance

instance : Std.LawfulEqCmp cmp where
  eq_of_compare {a b} h := by
    simp only [cmp, Ordering.then_eq_eq, Std.LawfulEqCmp.compare_eq_iff_eq] at h
    obtain ⟨hp, hr, hc, hi⟩ := h
    cases a; cases b
    simp_all

end QueueEntry

/-- `BTreeSet<QueueEntry>`. -/
abbrev QueueIndex := OrdSet QueueEntry.cmp

/-! ## The backend's state -/

/-- `InnerState`: everything the backend's lock protects. -/
structure InnerState where
  jobs : Uuid → Option Job
  queuedJobs : String → Option QueueIndex
  archive : Uuid → Option Job
  attempts : Uuid → Option MemoryAttempt
  attemptCounts : Uuid → Option Int
  streams : String → Option (List Event)
  streamOffsets : String × String → Option ConsumerGroupStatus

namespace InnerState

/-- `InnerState::default`. -/
def init : InnerState :=
  { jobs := fun _ => none, queuedJobs := fun _ => none, archive := fun _ => none,
    attempts := fun _ => none, attemptCounts := fun _ => none, streams := fun _ => none,
    streamOffsets := fun _ => none }

variable (s : InnerState)

/-- The entries of a queue's index, none when the queue has no index yet
    (`queued_jobs.get(queue).into_iter().flatten()`). -/
def index (queue : String) : QueueIndex := (s.queuedJobs queue).getD OrdSet.empty

/-- `jobs.insert(id, job)`, also a write through `jobs.get_mut(&id)`. -/
def setJob (id : Uuid) (job : Job) : InnerState := { s with jobs := update s.jobs id (some job) }

/-- `attempts.insert(id, attempt)`, also a write through `attempts.get_mut(&id)`. -/
def setAttempt (id : Uuid) (attempt : MemoryAttempt) : InnerState :=
  { s with attempts := update s.attempts id (some attempt) }

/-- `queued_jobs.entry(queue).or_default().insert(entry)`. -/
def indexInsert (queue : String) (entry : QueueEntry) : InnerState :=
  { s with queuedJobs := update s.queuedJobs queue (some ((s.index queue).insert entry)) }

/-- `if let Some(index) = queued_jobs.get_mut(queue)`, then `index.remove` of every entry. -/
def indexRemove (queue : String) (entries : List QueueEntry) : InnerState :=
  match s.queuedJobs queue with
  | some ix => { s with queuedJobs := update s.queuedJobs queue (some (ix.eraseAll entries)) }
  | none => s

/-! ### What each update leaves alone -/

variable {s}

@[simp] theorem setJob_jobs (id : Uuid) (job : Job) :
    (s.setJob id job).jobs = update s.jobs id (some job) := rfl
@[simp] theorem setJob_index (id : Uuid) (job : Job) (q : String) :
    (s.setJob id job).index q = s.index q := rfl
@[simp] theorem setJob_archive (id : Uuid) (job : Job) : (s.setJob id job).archive = s.archive := rfl
@[simp] theorem setJob_attempts (id : Uuid) (job : Job) : (s.setJob id job).attempts = s.attempts := rfl
@[simp] theorem setAttempt_jobs (id : Uuid) (a : MemoryAttempt) : (s.setAttempt id a).jobs = s.jobs := rfl
@[simp] theorem setAttempt_index (id : Uuid) (a : MemoryAttempt) (q : String) :
    (s.setAttempt id a).index q = s.index q := rfl
@[simp] theorem setAttempt_archive (id : Uuid) (a : MemoryAttempt) :
    (s.setAttempt id a).archive = s.archive := rfl
@[simp] theorem setAttempt_attempts (id : Uuid) (a : MemoryAttempt) :
    (s.setAttempt id a).attempts = update s.attempts id (some a) := rfl
@[simp] theorem indexInsert_jobs (q : String) (e : QueueEntry) : (s.indexInsert q e).jobs = s.jobs := rfl
@[simp] theorem indexInsert_archive (q : String) (e : QueueEntry) :
    (s.indexInsert q e).archive = s.archive := rfl
@[simp] theorem indexInsert_attempts (q : String) (e : QueueEntry) :
    (s.indexInsert q e).attempts = s.attempts := rfl

@[simp] theorem indexRemove_jobs (q : String) (es : List QueueEntry) :
    (s.indexRemove q es).jobs = s.jobs := by
  unfold indexRemove; split <;> rfl

@[simp] theorem indexRemove_archive (q : String) (es : List QueueEntry) :
    (s.indexRemove q es).archive = s.archive := by
  unfold indexRemove; split <;> rfl

@[simp] theorem indexRemove_attempts (q : String) (es : List QueueEntry) :
    (s.indexRemove q es).attempts = s.attempts := by
  unfold indexRemove; split <;> rfl

/-! ### Membership in the index after an update -/

theorem mem_indexInsert {q q' : String} {e e' : QueueEntry} :
    e' ∈ (s.indexInsert q e).index q' ↔ (q' = q ∧ e' = e) ∨ e' ∈ s.index q' := by
  by_cases hq : q' = q
  · subst hq
    simp [indexInsert, index]
  · simp [indexInsert, index, hq]

theorem mem_indexRemove {q q' : String} {es : List QueueEntry} {e : QueueEntry} :
    e ∈ (s.indexRemove q es).index q' ↔ e ∈ s.index q' ∧ ¬(q' = q ∧ e ∈ es) := by
  unfold indexRemove
  cases h : s.queuedJobs q with
  | none =>
      constructor
      · intro he
        refine ⟨he, ?_⟩
        rintro ⟨rfl, _⟩
        simp only [index, h, Option.getD_none] at he
        exact OrdSet.not_mem_empty e he
      · exact And.left
  | some ix =>
      by_cases hq : q' = q
      · subst hq
        simp [index, h]
      · simp [index, hq]

end InnerState
end Azums.Memory
