import Azums.Lib.Table
import Mathlib.Logic.Function.Basic

/-!
# `Lib.ReadCommitted` — row versions and row locks

A row of a table has at most two versions: the committed one, and the one that a single open transaction has
written over it. A pending version is also the lock on the row: whoever else wants to write it has to wait
(`update`), or steps over it (`claim`, which is `FOR UPDATE SKIP LOCKED`). A transaction sees its own pending
versions and otherwise what is committed when its statement runs, so two statements of one transaction may see
different committed rows: this is READ COMMITTED.

What statements do is read through one relation, `Wrote t Q v v'`: some rows that `t` sees and nobody else has
locked get a new pending version, related to the row by `Q`. The two rules are

* `Guarded.wrote`, a guard on the pair of committed and pending version is kept if every write meets it, and
* `Wrote.steady`, what one transaction writes leaves the pending rows of every other as they are.
-/

namespace Azums

/-- The versions of one row: the committed one, and the one an open transaction has written. -/
structure Cell (τ ρ : Type) where
  committed : Option ρ
  pending : Option (τ × ρ)

namespace Cell

variable {τ ρ : Type} [DecidableEq τ]

/-- What a transaction sees of a row. -/
def visible (c : Cell τ ρ) (t : τ) : Option ρ :=
  match c.pending with
  | some (t', r) => if t' = t then some r else c.committed
  | none => c.committed

/-- Another transaction has the row locked. -/
def heldFrom (c : Cell τ ρ) (t : τ) : Bool :=
  match c.pending with
  | some (t', _) => decide (t' ≠ t)
  | none => false

/-- Write over the version that a transaction sees, if it sees one. -/
def write (c : Cell τ ρ) (t : τ) (f : ρ → ρ) : Cell τ ρ :=
  match c.visible t with
  | some r => { c with pending := some (t, f r) }
  | none => c

def commit (c : Cell τ ρ) (t : τ) : Cell τ ρ :=
  match c.pending with
  | some (t', r) => if t' = t then { committed := some r, pending := none } else c
  | none => c

def rollback (c : Cell τ ρ) (t : τ) : Cell τ ρ :=
  match c.pending with
  | some (t', _) => if t' = t then { c with pending := none } else c
  | none => c

variable {c : Cell τ ρ} {t t' : τ} {r : ρ}

theorem visible_own (h : c.pending = some (t, r)) : c.visible t = some r := by
  simp [visible, h]

/-- What is seen is the own pending version or the committed one. -/
theorem visible_cases (h : c.visible t = some r) :
    c.pending = some (t, r) ∨ (c.committed = some r ∧ ∀ r', c.pending ≠ some (t, r')) := by
  unfold visible at h
  cases hp : c.pending with
  | none =>
      rw [hp] at h
      exact Or.inr ⟨h, fun r' hr' => by cases hr'⟩
  | some p =>
      obtain ⟨t', r'⟩ := p
      simp only [hp] at h
      by_cases ht : t' = t
      · rw [if_pos ht] at h
        rw [ht, Option.some.inj h]
        exact Or.inl rfl
      · rw [if_neg ht] at h
        refine Or.inr ⟨h, fun r'' hr'' => ht ?_⟩
        cases hr''
        rfl

/-- Without an own pending version, what is seen is the committed one. -/
theorem visible_committed (h : ∀ r, c.pending ≠ some (t, r)) : c.visible t = c.committed := by
  unfold visible
  split
  · rename_i t' r hp
    refine if_neg fun ht => h r ?_
    rw [hp, ht]
  · rfl

theorem not_held (h : c.heldFrom t = false) (hp : c.pending = some (t', r)) : t' = t := by
  by_contra hne
  simp [heldFrom, hp, hne] at h

theorem commit_cases (c : Cell τ ρ) (t : τ) :
    (∃ r, c.pending = some (t, r) ∧ c.commit t = { committed := some r, pending := none }) ∨
    ((∀ r, c.pending ≠ some (t, r)) ∧ c.commit t = c) := by
  unfold commit
  rcases hp : c.pending with _ | ⟨t', r⟩
  · exact Or.inr ⟨fun r hr => (by cases hr), rfl⟩
  · by_cases ht : t' = t
    · subst ht
      exact Or.inl ⟨r, rfl, if_pos rfl⟩
    · refine Or.inr ⟨fun r' hr' => ht ?_, if_neg ht⟩
      cases hr'
      rfl

theorem rollback_cases (c : Cell τ ρ) (t : τ) :
    (∃ r, c.pending = some (t, r) ∧ c.rollback t = { committed := c.committed, pending := none }) ∨
    ((∀ r, c.pending ≠ some (t, r)) ∧ c.rollback t = c) := by
  unfold rollback
  rcases hp : c.pending with _ | ⟨t', r⟩
  · exact Or.inr ⟨fun r hr => (by cases hr), rfl⟩
  · by_cases ht : t' = t
    · subst ht
      exact Or.inl ⟨r, rfl, if_pos rfl⟩
    · refine Or.inr ⟨fun r' hr' => ht ?_, if_neg ht⟩
      cases hr'
      rfl

/-- What another transaction has pending outlives a commit. -/
theorem commit_pending_of_ne (h : t' ≠ t) : (c.commit t).pending = some (t', r) ↔ c.pending = some (t', r) := by
  rcases c.commit_cases t with ⟨r', hp, hc⟩ | ⟨_, hc⟩
  · simp [hc, hp, h.symm]
  · rw [hc]

/-- And a rollback. -/
theorem rollback_pending_of_ne (h : t' ≠ t) : (c.rollback t).pending = some (t', r) ↔ c.pending = some (t', r) := by
  rcases c.rollback_cases t with ⟨r', hp, hc⟩ | ⟨_, hc⟩
  · simp [hc, hp, h.symm]
  · rw [hc]

theorem rollback_pending_self : (c.rollback t).pending ≠ some (t, r) := by
  rcases c.rollback_cases t with ⟨r', _, hc⟩ | ⟨hno, hc⟩
  · simp [hc]
  · rw [hc]
    exact hno r

@[simp] theorem rollback_committed : (c.rollback t).committed = c.committed := by
  rcases c.rollback_cases t with ⟨_, _, hc⟩ | ⟨_, hc⟩ <;> rw [hc]

end Cell

/-- A table: the keys in scan order, and the versions of the row under each key. -/
structure Versions (τ : Type) {κ ρ : Type} (key : ρ → κ) where
  keys : List κ
  cell : κ → Cell τ ρ
  keyed : ∀ k r, (cell k).committed = some r → key r = k
  keyedPending : ∀ k t r, (cell k).pending = some (t, r) → key r = k

namespace Versions

variable {τ κ ρ : Type} {key : ρ → κ} {v v' : Versions τ key} {t t' : τ}

section Statements

variable [DecidableEq τ]

theorem key_visible (v : Versions τ key) {k : κ} {t : τ} {r : ρ} (h : (v.cell k).visible t = some r) :
    key r = k := by
  rcases Cell.visible_cases h with hp | ⟨hc, _⟩
  · exact v.keyedPending k t r hp
  · exact v.keyed k r hc

/-- The table with no transaction open. -/
def ofRows [DecidableEq κ] (key : ρ → κ) (rows : List ρ) : Versions τ key where
  keys := rows.map key
  cell k := { committed := rows.find? (fun r => key r = k), pending := none }
  keyed := by
    intro k r h
    have hk := List.find?_some h
    rwa [decide_eq_true_eq] at hk
  keyedPending := by intro k t r h; cases h

/-- The rows that a transaction sees. -/
def rows (v : Versions τ key) (t : τ) : List ρ := v.keys.filterMap (fun k => (v.cell k).visible t)

/-- The committed rows. -/
def committedRows (v : Versions τ key) : List ρ := v.keys.filterMap (fun k => (v.cell k).committed)

/-- The rows under the selected keys get a pending version. -/
def write (v : Versions τ key) (t : τ) (sel : κ → Bool) (f : Table.Assign key) : Versions τ key where
  keys := v.keys
  cell k := if sel k then (v.cell k).write t f.set else v.cell k
  keyed := by
    intro k r h
    refine v.keyed k r ?_
    split at h
    · unfold Cell.write at h
      split at h <;> exact h
    · exact h
  keyedPending := by
    intro k t' r h
    split at h
    · unfold Cell.write at h
      split at h
      · rename_i r' hr'
        cases h
        rw [f.keeps]
        exact v.key_visible hr'
      · exact v.keyedPending k t' r h
    · exact v.keyedPending k t' r h

/-- The rows that `write` leaves under the selected keys. -/
def written (v : Versions τ key) (t : τ) (sel : κ → Bool) (f : Table.Assign key) : List ρ :=
  (v.keys.filter sel).filterMap (fun k => ((v.write t sel f).cell k).visible t)

/-- The keys of the rows that a `WHERE` selects. -/
def selects [DecidableEq κ] (v : Versions τ key) (t : τ) (p : ρ → Bool) (k : κ) : Bool :=
  decide (k ∈ v.keys) && ((v.cell k).visible t).any p

/-- `UPDATE … SET f WHERE p RETURNING *`. It waits while another transaction has one of the rows locked. -/
def update [DecidableEq κ] (v : Versions τ key) (t : τ) (p : ρ → Bool) (f : Table.Assign key) :
    Option (List ρ × Versions τ key) :=
  if v.keys.any (fun k => v.selects t p k && (v.cell k).heldFrom t) then none
  else some (v.written t (v.selects t p) f, v.write t (v.selects t p) f)

/-- The rows a transaction sees and can lock. -/
def freeRows (v : Versions τ key) (t : τ) : List ρ :=
  (v.keys.filter (fun k => !(v.cell k).heldFrom t)).filterMap (fun k => (v.cell k).visible t)

/-- The keys of the rows that are chosen among those that are not locked. -/
def claims [DecidableEq κ] [DecidableEq ρ] (v : Versions τ key) (t : τ) (choose : List ρ → List ρ) (k : κ) : Bool :=
  decide (k ∈ v.keys) && !(v.cell k).heldFrom t &&
    ((v.cell k).visible t).any (fun r => decide (r ∈ choose (v.freeRows t)))

/-- `SELECT … FOR UPDATE SKIP LOCKED`, and an `UPDATE` of the rows it locks. -/
def claim [DecidableEq κ] [DecidableEq ρ] (v : Versions τ key) (t : τ) (choose : List ρ → List ρ)
    (f : Table.Assign key) :
    List ρ × Versions τ key :=
  (v.written t (v.claims t choose) f, v.write t (v.claims t choose) f)

/-- `INSERT`, of a row whose key is new. -/
def insert [DecidableEq κ] (v : Versions τ key) (t : τ) (row : ρ) : Option (Versions τ key) :=
  if (v.cell (key row)).committed.isSome || (v.cell (key row)).pending.isSome then none
  else some
    { keys := v.keys ++ [key row]
      cell := Function.update v.cell (key row) { committed := none, pending := some (t, row) }
      keyed := by
        intro k r h
        by_cases hk : k = key row
        · subst hk; rw [Function.update_self] at h; cases h
        · rw [Function.update_of_ne hk] at h; exact v.keyed k r h
      keyedPending := by
        intro k t' r h
        by_cases hk : k = key row
        · subst hk; rw [Function.update_self] at h; cases h; rfl
        · rw [Function.update_of_ne hk] at h; exact v.keyedPending k t' r h }

/-- The pending versions of a transaction become the committed ones. -/
def commit (v : Versions τ key) (t : τ) : Versions τ key where
  keys := v.keys
  cell k := (v.cell k).commit t
  keyed := by
    intro k r h
    rcases (v.cell k).commit_cases t with ⟨r', hp, hc⟩ | ⟨_, hc⟩
    · rw [hc] at h
      cases h
      exact v.keyedPending k t r hp
    · rw [hc] at h
      exact v.keyed k r h
  keyedPending := by
    intro k t' r h
    rcases (v.cell k).commit_cases t with ⟨r', _, hc⟩ | ⟨_, hc⟩
    · rw [hc] at h
      cases h
    · rw [hc] at h
      exact v.keyedPending k t' r h

/-- The pending versions of a transaction are dropped. -/
def rollback (v : Versions τ key) (t : τ) : Versions τ key where
  keys := v.keys
  cell k := (v.cell k).rollback t
  keyed := by
    intro k r h
    rcases (v.cell k).rollback_cases t with ⟨r', _, hc⟩ | ⟨_, hc⟩ <;> rw [hc] at h <;> exact v.keyed k r h
  keyedPending := by
    intro k t' r h
    rcases (v.cell k).rollback_cases t with ⟨r', _, hc⟩ | ⟨_, hc⟩
    · rw [hc] at h
      cases h
    · rw [hc] at h
      exact v.keyedPending k t' r h

/-! ## What a statement writes -/

/-- Some of the rows that `t` sees, and that nobody else has locked, have a new pending version. -/
def Wrote (t : τ) (Q : ρ → ρ → Prop) (v v' : Versions τ key) : Prop :=
  ∀ k, v'.cell k = v.cell k ∨
    ∃ r r', (v.cell k).visible t = some r ∧ (v.cell k).heldFrom t = false ∧ Q r r' ∧
      v'.cell k = { committed := (v.cell k).committed, pending := some (t, r') }

theorem write_wrote {sel : κ → Bool} {f : Table.Assign key} {Q : ρ → ρ → Prop}
    (h : ∀ k r, sel k = true → (v.cell k).visible t = some r → (v.cell k).heldFrom t = false ∧ Q r (f.set r)) :
    Wrote t Q v (v.write t sel f) := by
  intro k
  show (if sel k then _ else _) = _ ∨ _
  by_cases hk : sel k = true
  · cases hr : (v.cell k).visible t with
    | none =>
        left
        rw [if_pos hk, Cell.write, hr]
    | some r =>
        right
        obtain ⟨hheld, hq⟩ := h k r hk hr
        refine ⟨r, f.set r, rfl, hheld, hq, ?_⟩
        show (if sel k then _ else _) = _
        rw [if_pos hk, Cell.write, hr]
  · left
    rw [if_neg hk]

/-- An update writes rows that the transaction finds and its `WHERE` selects. -/
theorem update_wrote_rows [DecidableEq κ] {p : ρ → Bool} {f : Table.Assign key} {answer : List ρ}
    (h : v.update t p f = some (answer, v')) :
    Wrote t (fun r r' => r ∈ v.rows t ∧ p r = true ∧ r' = f.set r) v v' := by
  unfold update at h
  split at h
  · cases h
  · rename_i hfree
    cases h
    refine write_wrote fun k r hk hr => ?_
    rw [selects, hr, Bool.and_eq_true, decide_eq_true_eq, Option.any_some] at hk
    refine ⟨?_, List.mem_filterMap.mpr ⟨k, hk.1, hr⟩, hk.2, rfl⟩
    by_contra hheld
    rw [Bool.not_eq_false] at hheld
    refine hfree (List.any_eq_true.mpr ⟨k, hk.1, ?_⟩)
    simp [selects, hr, hk.1, hk.2, hheld]

/-- An update writes rows that its `WHERE` selects. -/
theorem update_wrote [DecidableEq κ] {p : ρ → Bool} {f : Table.Assign key} {answer : List ρ}
    (h : v.update t p f = some (answer, v')) : Wrote t (fun r r' => p r = true ∧ r' = f.set r) v v' := by
  intro k
  rcases update_wrote_rows h k with hsame | ⟨r, r', hvis, hheld, hq, hcell⟩
  · exact Or.inl hsame
  · exact Or.inr ⟨r, r', hvis, hheld, hq.2, hcell⟩

/-- An update writes all the rows that its `WHERE` selects. -/
theorem update_cell [DecidableEq κ] {p : ρ → Bool} {f : Table.Assign key} {answer : List ρ} {k : κ} {r : ρ}
    (h : v.update t p f = some (answer, v')) (hk : k ∈ v.keys) (hr : (v.cell k).visible t = some r)
    (hp : p r = true) : v'.cell k = { committed := (v.cell k).committed, pending := some (t, f.set r) } := by
  unfold update at h
  split at h
  · cases h
  · cases h
    have hsel : v.selects t p k = true := by
      rw [selects, hr, decide_eq_true hk, Option.any_some, hp]
      rfl
    show (if v.selects t p k then _ else _) = _
    rw [if_pos hsel, Cell.write, hr]

/-- A claim writes rows that were chosen. -/
theorem claim_wrote [DecidableEq κ] [DecidableEq ρ] {choose : List ρ → List ρ} {f : Table.Assign key} :
    Wrote t (fun r r' => r ∈ choose (v.freeRows t) ∧ r' = f.set r) v (v.claim t choose f).2 := by
  refine write_wrote fun k r hk hr => ?_
  simp only [claims, hr, Bool.and_eq_true, Bool.not_eq_true', Option.any_some, decide_eq_true_eq] at hk
  exact ⟨hk.1.2, hk.2, rfl⟩

/-- The rows a claim returns were chosen, and are pending now. -/
theorem claim_answer [DecidableEq κ] [DecidableEq ρ] {choose : List ρ → List ρ} {f : Table.Assign key} {r' : ρ}
    (h : r' ∈ (v.claim t choose f).1) :
    (∃ r, r ∈ choose (v.freeRows t) ∧ r' = f.set r) ∧
      ((v.claim t choose f).2.cell (key r')).pending = some (t, r') := by
  obtain ⟨k, hk, hr'⟩ := List.mem_filterMap.mp h
  rw [List.mem_filter] at hk
  have hsel := hk.2
  unfold claims at hsel
  rw [Bool.and_eq_true] at hsel
  cases hr : (v.cell k).visible t with
  | none => rw [hr] at hsel; simp at hsel
  | some r =>
      rw [hr, Option.any_some, decide_eq_true_eq] at hsel
      have hcell : (v.claim t choose f).2.cell k =
          { committed := (v.cell k).committed, pending := some (t, f.set r) } := by
        show (if v.claims t choose k then _ else _) = _
        rw [if_pos hk.2, Cell.write, hr]
      have hpend : ((v.claim t choose f).2.cell k).pending = some (t, f.set r) := by rw [hcell]
      have heq : f.set r = r' := Option.some.inj ((Cell.visible_own hpend).symm.trans hr')
      subst heq
      refine ⟨⟨r, hsel.2, rfl⟩, ?_⟩
      rw [(v.claim t choose f).2.keyedPending k t _ hpend]
      exact hpend

/-- What is pending after a claim was pending before, or the claim has returned it. -/
theorem claim_pending [DecidableEq κ] [DecidableEq ρ] {choose : List ρ → List ρ} {f : Table.Assign key} {k : κ}
    {r : ρ} (h : ((v.claim t choose f).2.cell k).pending = some (t, r)) :
    (v.cell k).pending = some (t, r) ∨ r ∈ (v.claim t choose f).1 := by
  by_cases hk : v.claims t choose k = true
  · right
    have hmem : k ∈ v.keys := by
      simp only [claims, Bool.and_eq_true, decide_eq_true_eq] at hk
      exact hk.1.1
    exact List.mem_filterMap.mpr ⟨k, List.mem_filter.mpr ⟨hmem, hk⟩, Cell.visible_own h⟩
  · left
    have hcell : (v.claim t choose f).2.cell k = v.cell k := if_neg hk
    rw [hcell] at h
    exact h

/-! ## Keys -/

/-- Every row is under one of the keys in scan order. -/
def Listed (v : Versions τ key) : Prop :=
  ∀ k, k ∉ v.keys → v.cell k = { committed := none, pending := none }

theorem Listed.mem (h : v.Listed) {k : κ} {r : ρ} (hr : (v.cell k).visible t = some r) : k ∈ v.keys := by
  by_contra hk
  rw [h k hk] at hr
  cases hr

omit [DecidableEq τ] in
theorem ofRows_listed [DecidableEq κ] (key : ρ → κ) (rows : List ρ) : (ofRows (τ := τ) key rows).Listed := by
  intro k hk
  have hnone : rows.find? (fun r => key r = k) = none := by
    rw [List.find?_eq_none]
    intro r hr hkey
    exact hk (List.mem_map.mpr ⟨r, hr, of_decide_eq_true hkey⟩)
  show ({ committed := rows.find? (fun r => key r = k), pending := none } : Cell τ ρ) = _
  rw [hnone]

theorem Listed.wrote {Q : ρ → ρ → Prop} (h : v.Listed) (hw : Wrote t Q v v') (hkeys : v'.keys = v.keys) :
    v'.Listed := by
  intro k hk
  rw [hkeys] at hk
  rcases hw k with hsame | ⟨r, r', hvis, _⟩
  · rw [hsame]
    exact h k hk
  · exact absurd (h.mem hvis) hk

theorem update_keys [DecidableEq κ] {p : ρ → Bool} {f : Table.Assign key} {answer : List ρ}
    (h : v.update t p f = some (answer, v')) : v'.keys = v.keys := by
  unfold update at h
  split at h
  · cases h
  · cases h
    rfl

omit [DecidableEq τ] in
theorem Listed.insert [DecidableEq κ] {row : ρ} (h : v.Listed) (hins : v.insert t row = some v') : v'.Listed := by
  unfold Versions.insert at hins
  split at hins
  · cases hins
  · cases hins
    intro k hk
    simp only [List.mem_append, List.mem_singleton, not_or] at hk
    show Function.update v.cell (key row) _ k = _
    rw [Function.update_of_ne hk.2]
    exact h k hk.1

theorem Listed.commit (h : v.Listed) : (v.commit t).Listed := by
  intro k hk
  show (v.cell k).commit t = _
  rw [h k hk]
  rfl

theorem Listed.rollback (h : v.Listed) : (v.rollback t).Listed := by
  intro k hk
  show (v.cell k).rollback t = _
  rw [h k hk]
  rfl

end Statements

/-! ## Guards -/

/-- Every row that `t` has written over a committed one is related to it by `G`. -/
def Guarded (t : τ) (G : ρ → ρ → Prop) (v : Versions τ key) : Prop :=
  ∀ k r₀ r, (v.cell k).committed = some r₀ → (v.cell k).pending = some (t, r) → G r₀ r

/-- **The write rule.** A guard is kept if it holds of each new version, given that it held of the row before. -/
theorem Guarded.wrote [DecidableEq τ] {G Q : ρ → ρ → Prop} (h : Guarded t G v) (hw : Wrote t Q v v')
    (hq : ∀ k r₀ r r', (v.cell k).committed = some r₀ → (v.cell k).visible t = some r →
      r = r₀ ∨ G r₀ r → Q r r' → G r₀ r') : Guarded t G v' := by
  intro k r₀ r' hc hp
  rcases hw k with hsame | ⟨r, r'', hvis, _, hqr, hcell⟩
  · rw [hsame] at hc hp
    exact h k r₀ r' hc hp
  · rw [hcell] at hc hp
    cases hp
    refine hq k r₀ r r' hc hvis ?_ hqr
    rcases Cell.visible_cases hvis with hown | ⟨hcom, _⟩
    · exact Or.inr (h k r₀ r hc hown)
    · exact Or.inl (Option.some.inj (hcom.symm.trans hc))

/-- The rows that a transaction has pending are the same in both tables. -/
def Steady (t : τ) (v v' : Versions τ key) : Prop :=
  ∀ k, (∃ r, (v.cell k).pending = some (t, r)) ∨ (∃ r, (v'.cell k).pending = some (t, r)) →
    v'.cell k = v.cell k

theorem Steady.refl (t : τ) (v : Versions τ key) : Steady t v v := fun _ _ => rfl

theorem Steady.trans {v'' : Versions τ key} (h : Steady t v v') (h' : Steady t v' v'') : Steady t v v'' := by
  intro k hk
  rcases hk with ⟨r, hr⟩ | ⟨r, hr⟩
  · have hsame := h k (Or.inl ⟨r, hr⟩)
    rw [h' k (Or.inl ⟨r, by rw [hsame]; exact hr⟩), hsame]
  · have hsame := h' k (Or.inr ⟨r, hr⟩)
    rw [hsame, h k (Or.inr ⟨r, by rw [← hsame]; exact hr⟩)]

theorem Steady.pending (h : Steady t v v') {k : κ} {r : ρ} :
    (v'.cell k).pending = some (t, r) ↔ (v.cell k).pending = some (t, r) := by
  constructor
  · intro hp
    rw [← h k (Or.inr ⟨r, hp⟩)]
    exact hp
  · intro hp
    rw [h k (Or.inl ⟨r, hp⟩)]
    exact hp

theorem Guarded.steady {G : ρ → ρ → Prop} (h : Guarded t G v) (hs : Steady t v v') : Guarded t G v' := by
  intro k r₀ r hc hp
  rw [hs k (Or.inr ⟨r, hp⟩)] at hc
  exact h k r₀ r hc (hs.pending.mp hp)

/-- **The frame rule.** What one transaction writes leaves the pending rows of another alone. -/
theorem Wrote.steady [DecidableEq τ] {Q : ρ → ρ → Prop} (h : Wrote t Q v v') (hne : t' ≠ t) : Steady t' v v' := by
  intro k hk
  rcases h k with hsame | ⟨r, r', _, hheld, _, hcell⟩
  · exact hsame
  · rcases hk with ⟨r'', hp⟩ | ⟨r'', hp⟩
    · exact absurd (Cell.not_held hheld hp) hne
    · rw [hcell] at hp
      cases hp
      exact absurd rfl hne

theorem insert_cases [DecidableEq τ] [DecidableEq κ] {row : ρ} (h : v.insert t row = some v') (k : κ) :
    v'.cell k = v.cell k ∨ (k = key row ∧ (v.cell k) = { committed := none, pending := none } ∧
      v'.cell k = { committed := none, pending := some (t, row) }) := by
  unfold insert at h
  split at h
  · cases h
  · rename_i hnone
    cases h
    by_cases hk : k = key row
    · right
      subst hk
      refine ⟨rfl, ?_, Function.update_self ..⟩
      rw [Bool.or_eq_true, not_or, Option.not_isSome_iff_eq_none, Option.not_isSome_iff_eq_none] at hnone
      obtain ⟨hcom, hpend⟩ := hnone
      cases hcell : v.cell (key row) with
      | mk committed pending =>
          rw [hcell] at hcom hpend
          simp only at hcom hpend
          rw [hcom, hpend]
    · exact Or.inl (Function.update_of_ne hk ..)

theorem insert_steady [DecidableEq τ] [DecidableEq κ] {row : ρ} (h : v.insert t row = some v') (hne : t' ≠ t) :
    Steady t' v v' := by
  intro k hk
  rcases insert_cases h k with hsame | ⟨_, hold, hnew⟩
  · exact hsame
  · rw [hold, hnew] at hk
    rcases hk with ⟨r, hr⟩ | ⟨r, hr⟩
    · cases hr
    · cases hr
      exact absurd rfl hne

theorem Guarded.insert [DecidableEq τ] [DecidableEq κ] {G : ρ → ρ → Prop} {row : ρ} (hg : Guarded t G v)
    (h : v.insert t row = some v') : Guarded t G v' := by
  intro k r₀ r hc hp
  rcases insert_cases h k with hsame | ⟨_, _, hnew⟩
  · rw [hsame] at hc hp
    exact hg k r₀ r hc hp
  · rw [hnew] at hc
    cases hc

theorem commit_steady [DecidableEq τ] (hne : t' ≠ t) : Steady t' v (v.commit t) := by
  intro k hk
  rcases (v.cell k).commit_cases t with ⟨r, hp, hc⟩ | ⟨_, hc⟩
  · rcases hk with ⟨r', hr'⟩ | ⟨r', hr'⟩
    · rw [hp] at hr'
      cases hr'
      exact absurd rfl hne
    · have hr'' : ((v.cell k).commit t).pending = some (t', r') := hr'
      rw [hc] at hr''
      cases hr''
  · exact hc

theorem rollback_steady [DecidableEq τ] (hne : t' ≠ t) : Steady t' v (v.rollback t) := by
  intro k hk
  rcases (v.cell k).rollback_cases t with ⟨r, hp, hc⟩ | ⟨_, hc⟩
  · rcases hk with ⟨r', hr'⟩ | ⟨r', hr'⟩
    · rw [hp] at hr'
      cases hr'
      exact absurd rfl hne
    · have hr'' : ((v.cell k).rollback t).pending = some (t', r') := hr'
      rw [hc] at hr''
      cases hr''
  · exact hc

/-- A transaction that commits has nothing pending. -/
theorem commit_pending [DecidableEq τ] {k : κ} {r : ρ} : ((v.commit t).cell k).pending ≠ some (t, r) := by
  intro h
  have h' : ((v.cell k).commit t).pending = some (t, r) := h
  rcases (v.cell k).commit_cases t with ⟨r', _, hc⟩ | ⟨hno, hc⟩
  · rw [hc] at h'
    cases h'
  · rw [hc] at h'
    exact hno r h'

/-- Nor has one that rolls back. -/
theorem rollback_pending [DecidableEq τ] {k : κ} {r : ρ} : ((v.rollback t).cell k).pending ≠ some (t, r) := by
  intro h
  have h' : ((v.cell k).rollback t).pending = some (t, r) := h
  rcases (v.cell k).rollback_cases t with ⟨r', _, hc⟩ | ⟨hno, hc⟩
  · rw [hc] at h'
    cases h'
  · rw [hc] at h'
    exact hno r h'

/-- A rollback commits nothing. -/
theorem rollback_committed [DecidableEq τ] (k : κ) : ((v.rollback t).cell k).committed = (v.cell k).committed := by
  show ((v.cell k).rollback t).committed = _
  rcases (v.cell k).rollback_cases t with ⟨_, _, hc⟩ | ⟨_, hc⟩ <;> rw [hc]

/-- What is committed after a commit was committed before, or was pending. -/
theorem commit_committed [DecidableEq τ] {k : κ} {r : ρ} (h : ((v.commit t).cell k).committed = some r) :
    (v.cell k).committed = some r ∨ (v.cell k).pending = some (t, r) := by
  have h' : ((v.cell k).commit t).committed = some r := h
  rcases (v.cell k).commit_cases t with ⟨r', hp, hc⟩ | ⟨_, hc⟩
  · rw [hc] at h'
    cases h'
    exact Or.inr hp
  · rw [hc] at h'
    exact Or.inl h'

/-- What was pending is committed after a commit. -/
theorem commit_of_pending [DecidableEq τ] {k : κ} {r : ρ} (h : (v.cell k).pending = some (t, r)) :
    ((v.commit t).cell k).committed = some r := by
  show ((v.cell k).commit t).committed = some r
  rcases (v.cell k).commit_cases t with ⟨r', hp, hc⟩ | ⟨hno, _⟩
  · rw [h] at hp
    cases hp
    rw [hc]
  · exact absurd h (hno r)

end Versions
end Azums
