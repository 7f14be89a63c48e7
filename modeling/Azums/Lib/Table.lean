import Mathlib.Data.List.Nodup
import Mathlib.Data.List.Count

/-!
# `Lib.Table` — relational tables whose constraints are a field

A `Table ρ index constraint` is a list of rows together with the proof that the values of its indexed columns
satisfy the table's constraints (a primary key, a unique index, a partial one). The constraints read the rows
through `index` only, so an `UPDATE` that leaves the indexed columns alone needs no further proof.

The order of `rows` is the order in which the engine happens to scan them. A statement over all tables is
therefore a statement over every scan order, and over every way of breaking the ties of an `ORDER BY`.
-/

namespace Azums

/-- A table: rows, and the constraints their indexed columns satisfy. -/
structure Table (ρ : Type) {ι : Type} (index : ρ → ι) (constraint : List ι → Prop) where
  rows : List ρ
  valid : constraint (rows.map index)

namespace Table

variable {ρ ι : Type} {index : ρ → ι} {constraint : List ι → Prop}

theorem ext_rows {t t' : Table ρ index constraint} (h : t.rows = t'.rows) : t = t' := by
  cases t; cases t'; cases h; rfl

/-- The `SET` of an `UPDATE`: a change of a row that leaves its indexed columns alone. -/
structure Assign (index : ρ → ι) where
  set : ρ → ρ
  keeps : ∀ r, index (set r) = index r := by intro _; rfl

/-- Rewriting rows keeps their indexed columns. -/
theorem map_index (p : ρ → Bool) (f : Assign index) (rows : List ρ) :
    (rows.map (fun r => if p r then f.set r else r)).map index = rows.map index := by
  rw [List.map_map]
  refine List.map_congr_left fun r _ => ?_
  show index (if p r then f.set r else r) = index r
  split
  · exact f.keeps r
  · rfl

/-- `UPDATE … SET f WHERE p`. -/
def update (t : Table ρ index constraint) (p : ρ → Bool) (f : Assign index) : Table ρ index constraint where
  rows := t.rows.map (fun r => if p r then f.set r else r)
  valid := by rw [map_index]; exact t.valid

/-- How many rows a statement's `WHERE` selects. -/
def affected (t : Table ρ index constraint) (p : ρ → Bool) : Nat := t.rows.countP p

/-- `INSERT`, of a row under which the constraints still hold. -/
def insert (t : Table ρ index constraint) (row : ρ) (h : constraint ((t.rows ++ [row]).map index)) :
    Table ρ index constraint :=
  ⟨t.rows ++ [row], h⟩

/-- `DELETE … WHERE p`, from a table whose only constraint is a key. -/
def delete {index : ρ → ι} (t : Table ρ index List.Nodup) (p : ρ → Bool) : Table ρ index List.Nodup :=
  ⟨t.rows.filter (fun r => !p r), t.valid.sublist (List.filter_sublist.map index)⟩

@[simp] theorem delete_rows {index : ρ → ι} {t : Table ρ index List.Nodup} {p : ρ → Bool} :
    (t.delete p).rows = t.rows.filter (fun r => !p r) := rfl

variable {t : Table ρ index constraint} {p : ρ → Bool} {f : Assign index}

@[simp] theorem update_rows :
    (t.update p f).rows = t.rows.map (fun r => if p r then f.set r else r) := rfl

@[simp] theorem insert_rows {row : ρ} {h : constraint ((t.rows ++ [row]).map index)} :
    (t.insert row h).rows = t.rows ++ [row] := rfl

/-- An update keeps the indexed columns. -/
theorem index_update : (t.update p f).rows.map index = t.rows.map index := map_index p f t.rows

theorem affected_eq_zero : t.affected p = 0 ↔ ∀ r ∈ t.rows, p r = false := by
  simp [affected, List.countP_eq_zero]

/-- An update changes nothing exactly when it rewrites each selected row to itself. -/
theorem update_eq_self : t.update p f = t ↔ ∀ r ∈ t.rows, p r = true → f.set r = r := by
  constructor
  · intro h r hr hp
    have hrows := congrArg Table.rows h
    rw [update_rows] at hrows
    have hr' := (List.map_inj_left (f := fun r => if p r then f.set r else r) (g := id)).mp
      (hrows.trans (List.map_id _).symm) r hr
    simpa [hp] using hr'
  · intro h
    refine ext_rows ?_
    rw [update_rows]
    refine (List.map_congr_left fun r hr => ?_).trans (List.map_id _)
    show (if p r then f.set r else r) = r
    split
    · rename_i hp; exact h r hr hp
    · rfl

/-- An update that selects no row changes nothing. -/
theorem update_of_affected_zero (h : t.affected p = 0) : t.update p f = t := by
  refine update_eq_self.mpr fun r hr hp => ?_
  rw [affected_eq_zero.mp h r hr] at hp
  cases hp

/-- The rows that an update does not select, seen through a column it leaves alone. -/
theorem filter_update {q : ρ → Bool} (hq : ∀ r, q (f.set r) = q r) (hp : ∀ r, p r = true → q r = false) :
    (t.update p f).rows.filter q = t.rows.filter q := by
  rw [update_rows, List.filter_map]
  have hsame : (q ∘ fun r => if p r then f.set r else r) = q := by
    funext r
    by_cases hsel : p r = true
    · simp [hsel, hq]
    · simp [hsel]
  rw [hsame]
  refine (List.map_congr_left fun r hr => ?_).trans (List.map_id _)
  have hout : ¬p r = true := by
    intro hsel
    have hin := (List.mem_filter.mp hr).2
    rw [hp r hsel] at hin
    cases hin
  rw [if_neg hout, id]

/-- Deleting rows keeps the constraint. -/
def Shrinks (constraint : List ι → Prop) : Prop := ∀ l l', List.Sublist l l' → constraint l' → constraint l

/-- `DELETE … WHERE p`, from a table whose constraint allows it. -/
def deleteRows (t : Table ρ index constraint) (hc : Shrinks constraint) (p : ρ → Bool) : Table ρ index constraint :=
  ⟨t.rows.filter (fun r => !p r), hc _ _ (List.filter_sublist.map index) t.valid⟩

@[simp] theorem deleteRows_rows {hc : Shrinks constraint} :
    (t.deleteRows hc p).rows = t.rows.filter (fun r => !p r) := rfl

/-! ## Rows that are still there

A row that was updated is still there: it is told by the columns that no `UPDATE` sets. -/

section Retains

variable {κ : Type} {col : ρ → κ} {t' t'' : Table ρ index constraint}

/-- No row of the first table is missing in the second. -/
def Retains (col : ρ → κ) (t t' : Table ρ index constraint) : Prop := t.rows.map col ⊆ t'.rows.map col

@[refl] theorem Retains.refl : Retains col t t := fun _ h => h

theorem Retains.trans (h : Retains col t t') (h' : Retains col t' t'') : Retains col t t'' :=
  List.Subset.trans h h'

theorem retains_update (hcol : ∀ r, col (f.set r) = col r) : Retains col t (t.update p f) := by
  have hsame : (t.update p f).rows.map col = t.rows.map col := by
    rw [update_rows, List.map_map]
    refine List.map_congr_left fun r _ => ?_
    simp only [Function.comp]
    split
    · exact hcol r
    · rfl
  rw [Retains, hsame]
  exact List.Subset.refl _

theorem retains_insert {row : ρ} {h : constraint ((t.rows ++ [row]).map index)} : Retains col t (t.insert row h) := by
  rw [Retains, insert_rows, List.map_append]
  exact List.subset_append_left _ _

end Retains

/-! ## Rows under a key -/

section Lookup

variable {κ : Type}

/-- A `WHERE` that fixes the key of a row it selects selects no other. -/
theorem filter_eq_singleton {key : ρ → κ} {rows : List ρ} {p : ρ → Bool} {r : ρ}
    (hnd : (rows.map key).Nodup) (hr : r ∈ rows) (hp : p r = true) (hkey : ∀ x ∈ rows, p x = true → key x = key r) :
    rows.filter p = [r] := by
  induction rows with
  | nil => cases hr
  | cons x rest ih =>
      rw [List.map_cons, List.nodup_cons] at hnd
      rcases List.mem_cons.mp hr with rfl | hrest
      · rw [List.filter_cons_of_pos hp]
        have hnil : rest.filter p = [] := by
          rw [List.filter_eq_nil_iff]
          intro y hy hpy
          exact hnd.1 (hkey y (List.mem_cons_of_mem _ hy) hpy ▸ List.mem_map_of_mem hy)
        rw [hnil]
      · have hx : ¬p x = true := by
          intro hpx
          exact hnd.1 (hkey x (List.mem_cons_self ..) hpx ▸ List.mem_map_of_mem hrest)
        rw [List.filter_cons_of_neg hx]
        exact ih hnd.2 hrest fun y hy hpy => hkey y (List.mem_cons_of_mem _ hy) hpy

variable [DecidableEq κ] {key : ρ → κ} {k : κ} {r : ρ}

/-- The row under a value of a column that is unique. -/
def lookup (t : Table ρ index constraint) (key : ρ → κ) (k : κ) : Option ρ := t.rows.find? (fun r => key r == k)

theorem lookup_some (h : t.lookup key k = some r) : r ∈ t.rows ∧ key r = k :=
  ⟨List.mem_of_find?_eq_some h, by simpa using List.find?_some h⟩

theorem lookup_eq_none : t.lookup key k = none ↔ ∀ r ∈ t.rows, key r ≠ k := by
  simp [lookup, List.find?_eq_none]

theorem lookup_of_mem (hnd : (t.rows.map key).Nodup) (hr : r ∈ t.rows) : t.lookup key (key r) = some r := by
  cases h : t.lookup key (key r) with
  | none => exact absurd rfl (lookup_eq_none.mp h r hr)
  | some r' =>
      obtain ⟨hr', hkey⟩ := lookup_some h
      rw [List.inj_on_of_nodup_map hnd hr' hr hkey]

/-- An update that leaves the key alone rewrites the row where it is found. -/
theorem lookup_update (hkey : ∀ r, key (f.set r) = key r) (k : κ) :
    (t.update p f).lookup key k = (t.lookup key k).map (fun r => if p r then f.set r else r) := by
  unfold lookup
  rw [update_rows, List.find?_map]
  refine congrArg _ (congrArg (List.find? · t.rows) (funext fun r => ?_))
  show (key (if p r then f.set r else r) == k) = (key r == k)
  split
  · rw [hkey]
  · rfl

theorem lookup_insert {row : ρ} {h : constraint ((t.rows ++ [row]).map index)} (k : κ) :
    (t.insert row h).lookup key k = (t.lookup key k).or (if key row = k then some row else none) := by
  unfold lookup
  rw [insert_rows, List.find?_append]
  refine congrArg _ ?_
  by_cases hk : key row = k
  · rw [if_pos hk, List.find?_cons_of_pos (by simpa using hk)]
  · rw [if_neg hk, List.find?_cons_of_neg (by simpa using hk), List.find?_nil]

/-- An update of the row under one key. -/
theorem lookup_update_one (hkey : ∀ r, key (f.set r) = key r) (hp : ∀ r, p r = true → key r = k)
    (hr : t.lookup key k = some r) (hpr : p r = true) :
    (t.update p f).lookup key = Function.update (t.lookup key) k (some (f.set r)) := by
  funext k'
  rw [lookup_update hkey]
  by_cases hk : k' = k
  · rw [hk, Function.update_self, hr, Option.map_some, if_pos hpr]
  · rw [Function.update_of_ne hk]
    refine (Option.map_congr fun x hx => if_neg ?_).trans (Option.map_id' ..)
    intro hpx
    exact hk ((lookup_some hx).2.symm.trans (hp x hpx))

/-- A row added under a new key. -/
theorem lookup_insert_new {row : ρ} {h : constraint ((t.rows ++ [row]).map index)}
    (hnew : t.lookup key (key row) = none) :
    (t.insert row h).lookup key = Function.update (t.lookup key) (key row) (some row) := by
  funext k'
  rw [lookup_insert]
  by_cases hk : k' = key row
  · rw [hk, Function.update_self, hnew, if_pos rfl, Option.none_or]
  · rw [Function.update_of_ne hk, if_neg (Ne.symm hk), Option.or_none]

/-- A `WHERE` that fixes the key selects the row under the key, or no row. -/
theorem filter_of_key (hnd : (t.rows.map key).Nodup) (hp : ∀ r, p r = true → key r = k) :
    t.rows.filter p = ((t.lookup key k).filter p).toList := by
  cases h : (t.lookup key k).filter p with
  | none =>
      refine List.filter_eq_nil_iff.mpr fun r hr hpr => ?_
      have hfound := lookup_of_mem hnd hr
      rw [hp r hpr] at hfound
      rw [hfound, Option.filter_some_pos hpr] at h
      cases h
  | some r =>
      obtain ⟨hfound, hpr⟩ := Option.filter_eq_some_iff.mp h
      obtain ⟨hr, hkey⟩ := lookup_some hfound
      exact filter_eq_singleton hnd hr hpr fun x _ hx => (hp x hx).trans hkey.symm

theorem affected_of_key (hnd : (t.rows.map key).Nodup) (hp : ∀ r, p r = true → key r = k) :
    t.affected p = ((t.lookup key k).filter p).toList.length := by
  rw [affected, List.countP_eq_length_filter, filter_of_key hnd hp]

/-- Such a `WHERE` selects one row exactly if it selects the one under the key. -/
theorem affected_eq_one (hnd : (t.rows.map key).Nodup) (hp : ∀ r, p r = true → key r = k) :
    t.affected p = 1 ↔ ∃ r, t.lookup key k = some r ∧ p r = true := by
  rw [affected_of_key hnd hp]
  constructor
  · intro hone
    cases h : (t.lookup key k).filter p with
    | none =>
        rw [h] at hone
        cases hone
    | some r => exact ⟨r, Option.filter_eq_some_iff.mp h⟩
  · rintro ⟨r, hr, hpr⟩
    rw [hr, Option.filter_some_pos hpr]
    rfl

theorem find?_of_key (hnd : (t.rows.map key).Nodup) (hp : ∀ r, p r = true → key r = k) :
    t.rows.find? p = (t.lookup key k).filter p := by
  rw [← List.head?_filter, filter_of_key hnd hp]
  cases (t.lookup key k).filter p <;> rfl

end Lookup

end Table
end Azums
