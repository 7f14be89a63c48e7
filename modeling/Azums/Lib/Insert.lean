import Mathlib.Data.List.Basic

/-!
# `Lib.Insert` — `INSERT` statements with positional values

`INSERT INTO t (columns) VALUES (values)` pairs columns with values by position, and placeholders with bound parameters
by position. The database compares the lengths of the two lists when it prepares the statement; what is bound plays no
part in that. So a statement that is refused is refused for all parameters (`prepare_unbalanced`).
-/

namespace Azums

/-- A statement. A value is a literal, or a placeholder (`none`). -/
structure InsertInto (κ υ : Type) where
  columns : List κ
  values : List (Option υ)

namespace InsertInto

variable {κ υ : Type}

/-- The values, with the parameters put in for the placeholders from the left. A placeholder that is left without one
    is `NULL`. -/
def fill (null : υ) : List (Option υ) → List υ → List υ
  | [], _ => []
  | some v :: rest, params => v :: fill null rest params
  | none :: rest, [] => null :: fill null rest []
  | none :: rest, v :: params => v :: fill null rest params

/-- As many values as columns. -/
def Balanced (stmt : InsertInto κ υ) : Prop := stmt.columns.length = stmt.values.length

instance (stmt : InsertInto κ υ) : Decidable stmt.Balanced := inferInstanceAs (Decidable (_ = _))

variable [BEq κ]

/-- What the statement gives each column: nothing where it does not name it. -/
def prepare (stmt : InsertInto κ υ) (null : υ) (params : List υ) : Except String (κ → Option υ) :=
  if stmt.Balanced then .ok (fun column => (stmt.columns.zip (fill null stmt.values params)).lookup column)
  else .error s!"{stmt.values.length} values for {stmt.columns.length} columns"

/-- Whether a statement is accepted does not depend on the parameters. -/
theorem prepare_unbalanced {stmt : InsertInto κ υ} (h : ¬stmt.Balanced) (null : υ) (params : List υ) :
    stmt.prepare null params = .error s!"{stmt.values.length} values for {stmt.columns.length} columns" :=
  if_neg h

end InsertInto
end Azums
