import Azums.Core.Model

/-!
# `Sqlite.Texts` — timestamps and payloads as texts

SQLite has no type for timestamps and none for JSON. A timestamp is bound as the text that `chrono` makes of it, and
compared as a text; a payload is bound as the text that `serde_json` writes, and parsed when it is read. A float may come
back as its neighbour, a deeply nested payload does not parse at all, and a year of five digits sorts before one of
four. Neither package is part of the backend: `Texts` stands for what they do.
-/

namespace Azums.Sqlite

/-! ## Texts -/

/-- What the database holds as text: whether the text of a timestamp sorts at or before that of another, and how a
    payload is written and parsed. -/
structure Texts where
  timeLe : DateTime → DateTime → Bool
  writeJson : Value → String
  parseJson : String → Except String Value

namespace Texts

/-- `a < b` of two timestamps. Of two texts one sorts before the other unless it is at or after it. -/
def timeLt (texts : Texts) (a b : DateTime) : Bool := !texts.timeLe b a

/-- The texts of timestamps compare as the timestamps do. -/
def CompareAsTime (texts : Texts) : Prop := ∀ a b, texts.timeLe a b = decide (a ≤ b)

/-- What is parsed from the text of a payload. -/
def reread (texts : Texts) (payload : Value) : Except String Value := texts.parseJson (texts.writeJson payload)

/-- A payload that comes back as it was bound. -/
def Keeps (texts : Texts) (payload : Value) : Prop := texts.reread payload = .ok payload

/-- The column `payload_json`, as `sqlx` decodes it. -/
def readPayload (texts : Texts) (payload : Value) : Except String Value :=
  match texts.reread payload with
  | .error message => .error s!"error occurred while decoding column \"payload_json\": {message}"
  | .ok payload => .ok payload

/-- The texts of times in the years 0 to 9999, and of payloads without floats and deep nesting. -/
def plain : Texts := { timeLe := fun a b => decide (a ≤ b), writeJson := id, parseJson := .ok }

theorem plain_compareAsTime : plain.CompareAsTime := fun _ _ => rfl

theorem plain_keeps (payload : Value) : plain.Keeps payload := rfl

variable {texts : Texts}

theorem readPayload_of_keeps {payload : Value} (h : texts.Keeps payload) :
    texts.readPayload payload = .ok payload := by
  unfold readPayload
  rw [show texts.reread payload = .ok payload from h]

theorem timeLe_iff (h : texts.CompareAsTime) (a b : DateTime) : texts.timeLe a b = true ↔ a ≤ b := by
  rw [h, decide_eq_true_eq]

theorem timeLt_iff (h : texts.CompareAsTime) (a b : DateTime) : texts.timeLt a b = true ↔ a < b := by
  simp [timeLt, h b a]

end Texts

/-! ## Rows -/

section FetchAll

variable {ρ : Type} {read : ρ → Except String ρ} {rows : List ρ}

/-- `fetch_all`, which fails at the first row that does not decode. -/
def fetchAll (read : ρ → Except String ρ) : List ρ → Except String (List ρ)
  | [] => .ok []
  | r :: rest =>
      match read r with
      | .error message => .error message
      | .ok value =>
          match fetchAll read rest with
          | .error message => .error message
          | .ok values => .ok (value :: values)

/-- Rows that are read as they are. -/
theorem fetchAll_of_reads (h : ∀ r ∈ rows, read r = .ok r) : fetchAll read rows = .ok rows := by
  induction rows with
  | nil => rfl
  | cons r rest ih =>
      rw [List.forall_mem_cons] at h
      simp only [fetchAll, h.1, ih h.2]

/-- A column that reading does not change. -/
theorem fetchAll_map {κ : Type} (column : ρ → κ) (hread : ∀ r value, read r = .ok value → column value = column r) :
    ∀ {values : List ρ}, fetchAll read rows = .ok values → values.map column = rows.map column := by
  induction rows with
  | nil =>
      intro values h
      cases h
      rfl
  | cons r rest ih =>
      intro values h
      unfold fetchAll at h
      cases hone : read r with
      | error message => simp [hone] at h
      | ok value =>
          cases hrest : fetchAll read rest with
          | error message => simp [hone, hrest] at h
          | ok values' =>
              simp only [hone, hrest, Except.ok.injEq] at h
              rw [← h, List.map_cons, List.map_cons, ih hrest, hread r value hone]

/-- It fails exactly if some row does not decode. -/
theorem fetchAll_fails_iff :
    (∃ message, fetchAll read rows = .error message) ↔ ∃ r ∈ rows, ∀ value, read r ≠ .ok value := by
  induction rows with
  | nil => simp [fetchAll]
  | cons r rest ih =>
      simp only [List.mem_cons, or_and_right, exists_or, exists_eq_left, ← ih, fetchAll]
      cases hone : read r with
      | error message => simp
      | ok value => cases hrest : fetchAll read rest <;> simp

end FetchAll
end Azums.Sqlite
