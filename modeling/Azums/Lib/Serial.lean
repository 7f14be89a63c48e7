import Azums.Lib.Prog
import Azums.Lib.ReadCommitted

/-!
# `Lib.Serial` — a transaction with nobody else at the table

Where no other transaction has a row pending (`Solo`), the row versions of `Lib.ReadCommitted` behave as a plain list
of rows: an `UPDATE` maps the rows it selects and never waits, an `INSERT` under a new key appends, a commit makes
what the transaction saw the committed rows, and a rollback keeps the old ones. `Server.serve` runs a whole call so.
-/

namespace Azums

/-! ## Calls -/

section Calls

variable {ι C α σ : Type} {R : C → Type}

/-- The program run to its end against a server that may answer `none`, which ends the run. -/
def Prog.solo (exec : (c : C) → σ → Option (R c × σ)) : Prog C R α → σ → Option (α × σ)
  | done a, s => some (a, s)
  | call c k, s => (exec c s).bind (fun answer => (k answer.1).solo exec answer.2)

theorem Prog.solo_call {exec : (c : C) → σ → Option (R c × σ)} {c : C} {k : R c → Prog C R α} {s s' : σ} {r : R c}
    (h : exec c s = some (r, s')) : (Prog.call c k).solo exec s = (k r).solo exec s' := by
  rw [Prog.solo, h, Option.bind_some]

/-- A call of client `i` from its first command to its end, with nobody else at the server. -/
def Server.serve (m : Server ι C R α σ) (i : ι) (p : Prog C R α) (s : σ) : Option (α × σ) :=
  (p.solo (m.exec i) s).map (fun ended => (ended.1, m.close i ended.1 ended.2))

end Calls

namespace Versions

variable {τ κ ρ : Type} {key : ρ → κ} {v : Versions τ key} {t : τ}

/-- A row that is not there, and never was. -/
abbrev Absent (c : Cell τ ρ) : Prop := c = { committed := none, pending := none }

/-- No transaction but `t` has a row pending. -/
structure Solo (t : τ) (v : Versions τ key) : Prop where
  own : ∀ k t' r, (v.cell k).pending = some (t', r) → t' = t
  covered : ∀ k, k ∉ v.keys → Absent (v.cell k)

/-- No transaction has a row pending. -/
structure Quiet (v : Versions τ key) : Prop where
  settled : ∀ k, (v.cell k).pending = none
  covered : ∀ k, k ∉ v.keys → Absent (v.cell k)

theorem Quiet.solo (h : Quiet v) (t : τ) : Solo t v := by
  refine ⟨fun k t' r hp => ?_, h.covered⟩
  rw [h.settled k] at hp
  cases hp

theorem ofRows_quiet [DecidableEq κ] (rows : List ρ) : Quiet (ofRows (τ := τ) key rows) :=
  ⟨fun _ => rfl, ofRows_listed key rows⟩

/-- The committed rows of a new table are its rows. -/
theorem committedRows_ofRows [DecidableEq κ] {rows : List ρ} (h : (rows.map key).Nodup) :
    (ofRows (τ := τ) key rows).committedRows = rows := by
  show (rows.map key).filterMap (fun k => rows.find? (fun r => key r = k)) = rows
  rw [List.filterMap_map]
  have hfind : ∀ r ∈ rows, ((fun k => rows.find? (fun r => key r = k)) ∘ key) r = some r := by
    intro r hr
    show rows.find? (fun r' => key r' = key r) = some r
    cases hfound : rows.find? (fun r' => key r' = key r) with
    | none =>
        rw [List.find?_eq_none] at hfound
        exact absurd (decide_eq_true rfl) (hfound r hr)
    | some r' =>
        have hkey := List.find?_some hfound
        rw [decide_eq_true_eq] at hkey
        rw [List.inj_on_of_nodup_map h (List.mem_of_find?_eq_some hfound) hr hkey]
  rw [List.filterMap_congr hfind, List.filterMap_some]

section Rows

variable [DecidableEq τ]

/-- With nothing pending, a transaction sees the committed rows. -/
theorem Quiet.rows (h : Quiet v) (t : τ) : v.rows t = v.committedRows := by
  refine List.filterMap_congr fun k _ => ?_
  rw [Cell.visible, h.settled k]

theorem Solo.free (h : Solo t v) (k : κ) : (v.cell k).heldFrom t = false := by
  unfold Cell.heldFrom
  rcases hp : (v.cell k).pending with _ | ⟨t', r⟩
  · rfl
  · simp [h.own k t' r hp]

/-! ## Writing rows -/

theorem write_cell (sel : κ → Bool) (f : Table.Assign key) (k : κ) :
    (v.write t sel f).cell k = if sel k then (v.cell k).write t f.set else v.cell k := rfl

/-- What the writer sees of a row afterwards. -/
theorem write_visible (sel : κ → Bool) (f : Table.Assign key) (k : κ) :
    ((v.write t sel f).cell k).visible t =
      ((v.cell k).visible t).map (fun r => if sel k then f.set r else r) := by
  rw [write_cell]
  by_cases hsel : sel k = true
  · simp only [hsel, if_true]
    rw [Cell.write]
    cases hvis : (v.cell k).visible t with
    | none => rw [hvis, Option.map_none]
    | some r => rw [Option.map_some]; exact Cell.visible_own rfl
  · simp only [hsel, if_false, Bool.false_eq_true]
    rw [Option.map_id']

theorem write_committed (sel : κ → Bool) (f : Table.Assign key) (k : κ) :
    ((v.write t sel f).cell k).committed = (v.cell k).committed := by
  rw [write_cell]
  by_cases hsel : sel k = true
  · rw [if_pos hsel, Cell.write]
    cases (v.cell k).visible t <;> rfl
  · rw [if_neg hsel]

/-- A write leaves nobody else's rows pending. -/
theorem Solo.write (h : Solo t v) (sel : κ → Bool) (f : Table.Assign key) : Solo t (v.write t sel f) := by
  constructor
  · intro k t' r hp
    rw [write_cell] at hp
    by_cases hsel : sel k = true
    · rw [if_pos hsel, Cell.write] at hp
      cases hvis : (v.cell k).visible t with
      | none =>
          rw [hvis] at hp
          exact h.own k t' r hp
      | some r' =>
          rw [hvis] at hp
          cases hp
          rfl
    · rw [if_neg hsel] at hp
      exact h.own k t' r hp
  · intro k hk
    have habsent := h.covered k hk
    have hvis : (v.cell k).visible t = none := by rw [habsent]; rfl
    rw [write_cell, Cell.write, hvis]
    split <;> exact habsent

/-! ## The end of a transaction -/

/-- **`COMMIT`, alone.** What the transaction saw is what is committed. -/
theorem Solo.commit (h : Solo t v) :
    Quiet (v.commit t) ∧ (v.commit t).keys = v.keys ∧ (v.commit t).committedRows = v.rows t := by
  have hcell : ∀ k, (v.cell k).commit t = { committed := (v.cell k).visible t, pending := none } := by
    intro k
    unfold Cell.commit Cell.visible
    rcases hcell : v.cell k with ⟨committed, _ | ⟨t', r⟩⟩
    · rfl
    · obtain rfl := h.own k t' r (by rw [hcell])
      simp
  refine ⟨⟨fun k => ?_, fun k hk => ?_⟩, rfl, ?_⟩
  · show ((v.cell k).commit t).pending = none
    rw [hcell]
  · show (v.cell k).commit t = _
    rw [hcell, h.covered k hk]
    rfl
  · refine List.filterMap_congr fun k _ => ?_
    show ((v.cell k).commit t).committed = _
    rw [hcell]

/-- **`ROLLBACK`, alone.** The committed rows stay. -/
theorem Solo.rollback (h : Solo t v) :
    Quiet (v.rollback t) ∧ (v.rollback t).keys = v.keys ∧ (v.rollback t).committedRows = v.committedRows := by
  have hcell : ∀ k, (v.cell k).rollback t = { committed := (v.cell k).committed, pending := none } := by
    intro k
    unfold Cell.rollback
    rcases hcell : v.cell k with ⟨committed, _ | ⟨t', r⟩⟩
    · rfl
    · obtain rfl := h.own k t' r (by rw [hcell])
      simp
  refine ⟨⟨fun k => ?_, fun k hk => ?_⟩, rfl, ?_⟩
  · show ((v.cell k).rollback t).pending = none
    rw [hcell]
  · show (v.cell k).rollback t = _
    rw [hcell, h.covered k hk]
  · refine List.filterMap_congr fun k _ => ?_
    show ((v.cell k).rollback t).committed = _
    rw [hcell]

/-! ## Statements -/

variable [DecidableEq κ]

/-- **`UPDATE`, alone.** It does not wait, returns the rows it selects as it leaves them, and maps them in place. -/
theorem Solo.update (h : Solo t v) (p : ρ → Bool) (f : Table.Assign key) :
    ∃ v', v.update t p f = some (((v.rows t).filter p).map f.set, v') ∧ Solo t v' ∧ v'.keys = v.keys ∧
      v'.rows t = (v.rows t).map (fun r => if p r then f.set r else r) ∧ v'.committedRows = v.committedRows := by
  have hfree : ¬v.keys.any (fun k => v.selects t p k && (v.cell k).heldFrom t) = true := by
    rw [List.any_eq_true]
    rintro ⟨k, _, hk⟩
    rw [h.free k, Bool.and_false] at hk
    cases hk
  have hsel : ∀ k ∈ v.keys, v.selects t p k = ((v.cell k).visible t).any p := by
    intro k hk
    rw [selects, decide_eq_true hk, Bool.true_and]
  have hrows : (v.write t (v.selects t p) f).rows t = (v.rows t).map (fun r => if p r then f.set r else r) := by
    unfold rows
    rw [List.map_filterMap]
    refine List.filterMap_congr fun k hk => ?_
    rw [write_visible, hsel k hk]
    cases (v.cell k).visible t <;> rfl
  have hwritten : v.written t (v.selects t p) f = ((v.rows t).filter p).map f.set := by
    unfold written rows
    rw [List.filter_filterMap, List.map_filterMap, List.filterMap_filter]
    refine List.filterMap_congr fun k hk => ?_
    rw [hsel k hk, write_visible, hsel k hk]
    cases (v.cell k).visible t with
    | none => rfl
    | some r => by_cases hp : p r = true <;> simp [hp, Option.filter]
  refine ⟨v.write t (v.selects t p) f, ?_, h.write _ f, rfl, hrows, ?_⟩
  · rw [Versions.update, if_neg hfree, hwritten]
  · exact List.filterMap_congr fun k _ => write_committed _ f k

/-- **`INSERT`, alone.** A row under a new key is appended. -/
theorem Solo.insert (h : Solo t v) {row : ρ} (hnew : key row ∉ v.keys) :
    ∃ v', v.insert t row = some v' ∧ Solo t v' ∧ v'.keys = v.keys ++ [key row] ∧ v'.rows t = v.rows t ++ [row] ∧
      v'.committedRows = v.committedRows := by
  have hfree : ¬((v.cell (key row)).committed.isSome || (v.cell (key row)).pending.isSome) = true := by
    rw [h.covered _ hnew]
    exact Bool.false_ne_true
  have hother (c : Cell τ ρ) : ∀ k ∈ v.keys, Function.update v.cell (key row) c k = v.cell k := by
    intro k hk
    have hne : k ≠ key row := fun heq => hnew (heq ▸ hk)
    exact Function.update_of_ne hne ..
  unfold Versions.insert
  refine ⟨_, if_neg hfree, ⟨fun k t' r hp => ?_, fun k hk => ?_⟩, rfl, ?_, ?_⟩
  · have hcell : (Function.update v.cell (key row) { committed := none, pending := some (t, row) } k).pending =
        some (t', r) := hp
    by_cases hk : k = key row
    · rw [hk, Function.update_self] at hcell
      cases hcell
      rfl
    · rw [Function.update_of_ne hk] at hcell
      exact h.own k t' r hcell
  · rw [List.mem_append, List.mem_singleton, not_or] at hk
    show Function.update _ _ _ k = _
    rw [Function.update_of_ne hk.2]
    exact h.covered k hk.1
  · show (v.keys ++ [key row]).filterMap _ = _
    rw [List.filterMap_append]
    congr 1
    · refine List.filterMap_congr fun k hk => ?_
      show (Function.update v.cell _ _ k).visible t = _
      rw [hother _ k hk]
    · simp [Cell.visible]
  · show (v.keys ++ [key row]).filterMap _ = _
    have hlast : [key row].filterMap (fun k => (Function.update v.cell (key row)
        { committed := none, pending := some (t, row) } k).committed) = [] := by simp
    rw [List.filterMap_append]
    refine (congrArg _ hlast).trans ?_
    rw [List.append_nil]
    refine List.filterMap_congr fun k hk => ?_
    show (Function.update v.cell _ _ k).committed = _
    rw [hother _ k hk]

end Rows
end Versions
end Azums
