import Azums.Redis.Backend

/-!
# `Redis.Places` — where a job's id can be, and what a reaper makes of it

The server knows a job that is to be worked on by its id in a list: the list of its queue, or the processing list of
the worker that took it, from which `reap_expired_locks` brings it back once the lock in its record has expired.
`Consistent` ties the lists to the records: an id in a list has a record, and the list is one of that record's queue.

`reap_returns` is why a processing list counts as a place at all: a reaper that runs on its own, any time after the lock
has expired, leaves the id in the list of its queue. It reads the queue back out of the key, so this needs a queue name
without a colon; a job of `eu:emails` that is reaped goes to the queue `eu`.
-/

namespace Azums.Redis

/-! ## Keys -/

/-- A queue name that the reaper reads back as it is. -/
def Plain (queue : String) : Prop := ':' ∉ queue.toList

instance (queue : String) : Decidable (Plain queue) := inferInstanceAs (Decidable (_ ∉ _))

theorem queueKey_inj {q q' : String} (h : queueKey q = queueKey q') : q = q' := by
  have hlist := congrArg String.toList h
  simp only [queueKey, String.toList_append, List.append_cancel_left_eq] at hlist
  exact String.toList_inj.mp hlist

theorem isProcessing_queueKey (q : String) : isProcessing (queueKey q) = false := by
  rw [isProcessing, queueKey, String.toList_append]
  rfl

theorem toList_append_four (a b c d : String) :
    (a ++ b ++ c ++ d).toList = a.toList ++ (b.toList ++ (c.toList ++ d.toList)) := by
  rw [String.toList_append, String.toList_append, String.toList_append, List.append_assoc, List.append_assoc]

theorem processingKey_toList (q w : String) :
    (processingKey q w).toList = "azums:processing:".toList ++ (q.toList ++ (":".toList ++ w.toList)) :=
  toList_append_four "azums:processing:" q ":" w

theorem isProcessing_processingKey (q w : String) : isProcessing (processingKey q w) = true := by
  have hkey := processingKey_toList q w
  unfold isProcessing
  generalize (processingKey q w).toList = l at hkey
  subst hkey
  exact List.isPrefixOf_iff_prefix.mpr (List.prefix_append _ _)

theorem splitColon_processingKey {q : String} (w : String) (hq : Plain q) :
    splitColon (processingKey q w) = "azums" :: "processing" :: q :: splitColon w := by
  have hkey := processingKey_toList q w
  have hazums : "azums:processing:".toList = "azums".toList ++ ':' :: ("processing".toList ++ [':']) := by decide
  have hcolon : ":".toList = [':'] := by decide
  rw [hazums, hcolon, List.append_assoc, List.cons_append, List.append_assoc] at hkey
  have hsplit : (processingKey q w).toList.splitOn ':' =
      "azums".toList :: "processing".toList :: q.toList :: w.toList.splitOn ':' := by
    rw [hkey, List.splitOn_append_cons_self_of_not_mem (by decide)]
    show _ :: ("processing".toList ++ ':' :: (q.toList ++ ':' :: w.toList)).splitOn ':' = _
    rw [List.splitOn_append_cons_self_of_not_mem (by decide), List.splitOn_append_cons_self_of_not_mem hq]
  simp only [splitColon, hsplit, List.map_cons, String.ofList_toList]

/-- The reaper finds the queue of a processing list in its key. -/
theorem reapTarget_processingKey {q : String} (w : String) (hq : Plain q) :
    reapTarget (processingKey q w) = some (queueKey q) := by
  have hparts := splitColon_processingKey w hq
  have hlast : splitColon w ≠ [] := fun h => List.splitOn_ne_nil ':' w.toList (List.map_eq_nil_iff.mp h)
  have hlen : ¬(splitColon (processingKey q w)).length < 4 := by
    have hpos : 0 < (splitColon w).length := List.length_pos_iff.mpr hlast
    rw [hparts]
    simp only [List.length_cons]
    omega
  unfold reapTarget
  simp only [if_neg hlen]
  rw [hparts]
  rfl

/-- What the reaper pushes to is the list of a queue. -/
theorem reapTarget_eq {key target : String} (h : reapTarget key = some target) : ∃ q, target = queueKey q := by
  unfold reapTarget at h
  simp only at h
  split at h
  · cases h
  · obtain ⟨q, _, hq⟩ := Option.map_eq_some_iff.mp h
    exact ⟨q, hq.symm⟩

/-! ## Places -/

/-- Work that is still to be done. -/
def Live (status : String) : Prop := status = "queued" ∨ status = "running"

instance (status : String) : Decidable (Live status) := inferInstanceAs (Decidable (_ ∨ _))

/-- The id is in the list of the job's queue, or in a processing list while the record has a lock. -/
def Listed (s : Store) (id : Uuid) (job : Job) : Prop :=
  (queueKey job.queue, id) ∈ s.entries ∨
    (job.lockExpiresAt.isSome = true ∧ ∃ key, isProcessing key = true ∧ (key, id) ∈ s.entries)

/-- The lists agree with the records. -/
structure Consistent (s : Store) : Prop where
  plain : ∀ id job, s.jobs id = some job → Plain job.queue
  placed : ∀ key id, (key, id) ∈ s.entries → ∃ job, s.jobs id = some job ∧
    (key = queueKey job.queue ∨ ∃ workerId, key = processingKey job.queue workerId)

theorem mem_list {s : Store} {key : String} {id : Uuid} : id ∈ s.list key ↔ (key, id) ∈ s.entries := by
  simp only [Store.list, List.mem_map, List.mem_filter, beq_iff_eq]
  constructor
  · rintro ⟨⟨k, i⟩, ⟨hmem, rfl⟩, rfl⟩
    exact hmem
  · intro hmem
    exact ⟨(key, id), ⟨hmem, rfl⟩, rfl⟩

namespace Consistent

variable {s : Store} {id : Uuid} {job : Job}

/-- An id in the list of a queue is that of a job of the queue. -/
theorem queue_of_mem (h : Consistent s) {q : String} (hmem : (queueKey q, id) ∈ s.entries) :
    ∃ job, s.jobs id = some job ∧ job.queue = q := by
  obtain ⟨job, hjob, hkey | ⟨workerId, hkey⟩⟩ := h.placed _ id hmem
  · exact ⟨job, hjob, (queueKey_inj hkey).symm⟩
  · have hproc := isProcessing_processingKey job.queue workerId
    rw [← hkey, isProcessing_queueKey] at hproc
    cases hproc

/-- The reaper brings an id from any processing list to the list of its own queue. -/
theorem target_of_mem (h : Consistent s) {key : String} (hproc : isProcessing key = true)
    (hmem : (key, id) ∈ s.entries) (hjob : s.jobs id = some job) : reapTarget key = some (queueKey job.queue) := by
  obtain ⟨job', hjob', hkey⟩ := h.placed key id hmem
  rw [hjob] at hjob'
  cases hjob'
  rcases hkey with rfl | ⟨workerId, rfl⟩
  · rw [isProcessing_queueKey] at hproc
    cases hproc
  · exact reapTarget_processingKey workerId (h.plain id job hjob)

end Consistent

/-! ## A reaper on its own -/

section Reaper

variable {id : Uuid} {q : String} {now : DateTime}

/-- Every processing list that has the id leads the reaper to the queue `q`. -/
def Homes (id : Uuid) (q : String) (s : Store) : Prop :=
  ∀ key, isProcessing key = true → (key, id) ∈ s.entries → reapTarget key = some (queueKey q)

/-- The lock of the job has expired. -/
def Due (now : DateTime) (id : Uuid) (s : Store) : Prop :=
  ∃ job, s.jobs id = some job ∧ job.lockExpiresAt.any (fun exp => decide (exp ≤ now)) = true

/-- The id is where it should be, or it is due and in one of the lists that are still to be reaped. -/
def Awaits (now : DateTime) (id : Uuid) (q : String) (keys : List String) (s : Store) : Prop :=
  (queueKey q, id) ∈ s.entries ∨ (Due now id s ∧ ∃ key ∈ keys, (key, id) ∈ s.entries)

/-- What the inner loop does for one member whose lock has expired. -/
def reapOne (now : DateTime) (procKey target : String) (jid : Uuid) (job : Job) (s : Store) : Store :=
  { s with
    jobs := Function.update s.jobs jid (some (requeuedJob now job))
    entries := s.entries.erase (procKey, jid) ++ [(target, jid)] }

theorem mem_reapOne_of_ne {procKey target key : String} {jid : Uuid} {job : Job} {s : Store} (hne : id ≠ jid) :
    (key, id) ∈ (reapOne now procKey target jid job s).entries ↔ (key, id) ∈ s.entries := by
  have hpair : ((key, id) : String × Uuid) ≠ (procKey, jid) := fun h => hne (congrArg Prod.snd h)
  show (key, id) ∈ s.entries.erase (procKey, jid) ++ [(target, jid)] ↔ _
  rw [List.mem_append, List.mem_erase_of_ne hpair, List.mem_singleton]
  exact ⟨fun h => h.elim (fun hm => hm) (fun he => absurd (congrArg Prod.snd he) hne), Or.inl⟩

/-- One round of the inner loop. -/
theorem reapList_cons_alone {α : Type} {f : Nat → Cmds α} {procKey target : String} {jid : Uuid} {rest : List Uuid}
    {reaped : Nat} {s : Store} :
    (reapList now procKey target (jid :: rest) reaped >>= f).alone Command.exec s =
      match s.jobs jid with
      | none => (reapList now procKey target rest reaped >>= f).alone Command.exec s
      | some job =>
          if job.lockExpiresAt.any (fun exp => decide (exp ≤ now)) then
            (reapList now procKey target rest (reaped + 1) >>= f).alone Command.exec
              (reapOne now procKey target jid job s)
          else (reapList now procKey target rest reaped >>= f).alone Command.exec s := by
  simp only [reapList, hget, Prog.call_bind, Prog.done_bind, Prog.alone, Command.exec]
  cases s.jobs jid with
  | none => rfl
  | some job =>
      simp only
      split <;> rfl

/-- The inner loop: an id that is due and among the members, or awaited in a later list, is so afterwards. -/
theorem reapList_alone {α : Type} {f : Nat → Cmds α} {procKey target : String} {rest : List String}
    (htarget : ∃ q, target = queueKey q) :
    ∀ (jids : List Uuid) (reaped : Nat) (s : Store), (id ∈ jids → target = queueKey q) → Homes id q s →
      (Awaits now id q rest s ∨ (Due now id s ∧ id ∈ jids)) →
      ∃ n s', (reapList now procKey target jids reaped >>= f).alone Command.exec s = (f n).alone Command.exec s' ∧
        Homes id q s' ∧ Awaits now id q rest s'
  | [], reaped, s, _, hhomes, hawaits => by
      refine ⟨reaped, s, rfl, hhomes, hawaits.elim (fun h => h) ?_⟩
      rintro ⟨_, hmem⟩
      cases hmem
  | jid :: tail, reaped, s, hjids, hhomes, hawaits => by
      have htail : id ∈ tail → target = queueKey q := fun hmem => hjids (List.mem_cons_of_mem _ hmem)
      -- a member that is not due is left alone, so the rest of the list still has the id if it is due
      have hskip (hnot : ∀ job, s.jobs jid = some job →
          ¬job.lockExpiresAt.any (fun exp => decide (exp ≤ now)) = true) :
          Awaits now id q rest s ∨ (Due now id s ∧ id ∈ tail) := by
        refine hawaits.imp_right ?_
        rintro ⟨⟨job, hid, hexp⟩, hmem⟩
        rcases List.mem_cons.mp hmem with rfl | hmem
        · exact absurd hexp (hnot job hid)
        · exact ⟨⟨job, hid, hexp⟩, hmem⟩
      rw [reapList_cons_alone]
      cases hjob : s.jobs jid with
      | none => exact reapList_alone htarget tail reaped s htail hhomes (hskip (fun job he => by simp [hjob] at he))
      | some job =>
          simp only
          by_cases hexp : job.lockExpiresAt.any (fun exp => decide (exp ≤ now)) = true
          · rw [if_pos hexp]
            refine reapList_alone htarget tail (reaped + 1) _ htail ?_ ?_
            · -- the only new entry is in the list of a queue
              intro key hproc hmem
              rcases List.mem_append.mp hmem with hmem | hmem
              · exact hhomes key hproc (List.mem_of_mem_erase hmem)
              · obtain ⟨q', hq'⟩ := htarget
                have hkey : key = target := congrArg Prod.fst (List.mem_singleton.mp hmem)
                rw [hkey, hq', isProcessing_queueKey] at hproc
                cases hproc
            · by_cases hid : id = jid
              · have hq : target = queueKey q := hjids (hid ▸ List.mem_cons_self)
                refine Or.inl (Or.inl (List.mem_append_right _ ?_))
                rw [hid, hq]
                exact List.mem_singleton_self _
              · have hdue : Due now id s → Due now id (reapOne now procKey target jid job s) := by
                  rintro ⟨job', hjob', hexp'⟩
                  exact ⟨job', (Function.update_of_ne hid ..).trans hjob', hexp'⟩
                rcases hawaits with (hqueue | ⟨hd, key, hkey, hmem⟩) | ⟨hd, hmem⟩
                · exact Or.inl (Or.inl ((mem_reapOne_of_ne hid).mpr hqueue))
                · exact Or.inl (Or.inr ⟨hdue hd, key, hkey, (mem_reapOne_of_ne hid).mpr hmem⟩)
                · exact Or.inr ⟨hdue hd, (List.mem_cons.mp hmem).resolve_left hid⟩
          · rw [if_neg hexp]
            refine reapList_alone htarget tail reaped s htail hhomes (hskip ?_)
            intro job' he
            rw [hjob] at he
            cases he
            exact hexp

/-- The outer loop leaves an awaited id in the list of its queue. -/
theorem reapKeys_alone :
    ∀ (keys : List String) (reaped : Nat) (s : Store), (∀ key ∈ keys, isProcessing key = true) → Homes id q s →
      Awaits now id q keys s → (queueKey q, id) ∈ ((reapKeys now keys reaped).alone Command.exec s).2.entries
  | [], _, s, _, _, hawaits => hawaits.elim (fun h => h) (fun h => by obtain ⟨_, _, hmem, _⟩ := h; cases hmem)
  | procKey :: rest, reaped, s, hkeys, hhomes, hawaits => by
      have hproc : isProcessing procKey = true := hkeys procKey List.mem_cons_self
      have hrest : ∀ key ∈ rest, isProcessing key = true := fun key hmem => hkeys key (List.mem_cons_of_mem _ hmem)
      unfold reapKeys
      split
      · rename_i hnone
        -- a key of another format is skipped; a list with the id has a key that names the queue
        refine reapKeys_alone rest reaped s hrest hhomes (hawaits.imp_right ?_)
        rintro ⟨hdue, key, hkey, hmem⟩
        rcases List.mem_cons.mp hkey with rfl | hkey
        · rw [hhomes key hproc hmem] at hnone
          cases hnone
        · exact ⟨hdue, key, hkey, hmem⟩
      · rename_i target htarget
        have hjids : id ∈ s.list procKey → target = queueKey q := by
          intro hmem
          have hhome := hhomes procKey hproc (mem_list.mp hmem)
          rw [htarget] at hhome
          exact Option.some.inj hhome
        -- the id is in the list that comes next, or awaits a later one
        have hcase : Awaits now id q rest s ∨ (Due now id s ∧ id ∈ s.list procKey) := by
          rcases hawaits with hqueue | ⟨hdue, key, hkey, hmem⟩
          · exact Or.inl (Or.inl hqueue)
          · rcases List.mem_cons.mp hkey with rfl | hkey
            · exact Or.inr ⟨hdue, mem_list.mpr hmem⟩
            · exact Or.inl (Or.inr ⟨hdue, key, hkey, hmem⟩)
        obtain ⟨n, s', hrun, hhomes', hawaits'⟩ :=
          reapList_alone (f := reapKeys now rest) (reapTarget_eq htarget) (s.list procKey) reaped s hjids hhomes hcase
        show _ ∈ ((reapList now procKey target (s.list procKey) reaped >>= reapKeys now rest).alone
          Command.exec s).2.entries
        rw [hrun]
        exact reapKeys_alone rest n s' hrest hhomes' hawaits'

/-- A reaper on its own brings an id that is due to the list that its processing lists lead to, in whatever order `KEYS`
    answers. -/
theorem reap_home {s : Store} {key : String} (order : KeyOrder) (hhomes : Homes id q s) (hdue : Due now id s)
    (hproc : isProcessing key = true) (hmem : (key, id) ∈ s.entries) :
    (queueKey q, id) ∈ ((reapExpiredLocks order now).alone Command.exec s).2.entries := by
  have hmem_keys (k : String) :
      k ∈ order.arrange ((s.entries.map Prod.fst).filter isProcessing).dedup ↔
        k ∈ s.entries.map Prod.fst ∧ isProcessing k = true := by
    rw [(order.perm _).mem_iff, List.mem_dedup, List.mem_filter]
  refine reapKeys_alone _ 0 s (fun k hk => ((hmem_keys k).mp hk).2) hhomes (Or.inr ⟨hdue, key, ?_, hmem⟩)
  exact (hmem_keys key).mpr ⟨List.mem_map_of_mem (f := Prod.fst) hmem, hproc⟩

/-- **What a reaper is for.** Once the lock in its record has expired, a reaper that runs on its own brings an id from a
    processing list to the list of its queue, in whatever order `KEYS` answers. -/
theorem reap_returns {s : Store} {job : Job} {key : String} (h : Consistent s) (order : KeyOrder)
    (hjob : s.jobs id = some job) (hproc : isProcessing key = true) (hmem : (key, id) ∈ s.entries)
    (hexp : job.lockExpiresAt.any (fun exp => decide (exp ≤ now)) = true) :
    (queueKey job.queue, id) ∈ ((reapExpiredLocks order now).alone Command.exec s).2.entries :=
  reap_home order (fun _ hk hmem' => h.target_of_mem hk hmem' hjob) ⟨job, hjob, hexp⟩ hproc hmem

end Reaper
end Azums.Redis
