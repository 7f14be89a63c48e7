import Mathlib.Data.Int.Notation
import Mathlib.Tactic.NormNum

/-!
# `Core.Time` — clock readings, `chrono` arithmetic and the civil calendar

A `DateTime<Utc>` is a number of nanoseconds since the Unix epoch. `chrono`'s two partial operations keep
their ranges: `Duration::seconds` panics outside `±i64::MAX / 1000` seconds and `DateTime + Duration` panics
outside the years `-262143 ..= 262142`; both return `none` here where the code panics.

The calendar half (`civilFromDays`, `formatHour`) is what `DateTime::format("%Y%m%d_%H")` needs.
-/

namespace Azums

/-- `chrono::DateTime<Utc>`: nanoseconds since the Unix epoch. -/
abbrev DateTime := Int

namespace Chrono

def nanosPerSecond : Int := 1000000000

/-! ## The civil calendar -/

/-- Days since the Unix epoch of a proleptic Gregorian date. -/
def daysFromCivil (year month day : Int) : Int :=
  let y := if month ≤ 2 then year - 1 else year
  let era := y / 400
  let yearOfEra := y - era * 400
  let shifted := if month > 2 then month - 3 else month + 9
  let dayOfYear := (153 * shifted + 2) / 5 + day - 1
  let dayOfEra := yearOfEra * 365 + yearOfEra / 4 - yearOfEra / 100 + dayOfYear
  era * 146097 + dayOfEra - 719468

/-- Year, month and day of a number of days since the Unix epoch. -/
def civilFromDays (days : Int) : Int × Int × Int :=
  let z := days + 719468
  let era := z / 146097
  let dayOfEra := z - era * 146097
  let yearOfEra := (dayOfEra - dayOfEra / 1460 + dayOfEra / 36524 - dayOfEra / 146096) / 365
  let dayOfYear := dayOfEra - (365 * yearOfEra + yearOfEra / 4 - yearOfEra / 100)
  let shifted := (5 * dayOfYear + 2) / 153
  let day := dayOfYear - (153 * shifted + 2) / 5 + 1
  let month := if shifted < 10 then shifted + 3 else shifted - 9
  let year := yearOfEra + era * 400
  (if month ≤ 2 then year + 1 else year, month, day)

/-- Whole hours since the Unix epoch. -/
def hourOf (t : DateTime) : Int := t / (3600 * nanosPerSecond)

/-- A number padded with zeros on the left to `width` digits. -/
def padZero (width n : Nat) : String :=
  let digits := Nat.toDigits 10 n
  String.ofList (List.replicate (width - digits.length) '0' ++ digits)

/-- `%Y`: four digits, with an explicit sign outside `0 ..= 9999`. -/
def formatYear (year : Int) : String :=
  if 0 ≤ year ∧ year ≤ 9999 then padZero 4 year.toNat
  else (if year < 0 then "-" else "+") ++ padZero 4 year.natAbs

/-- `%Y%m%d_%H` of an hour since the epoch. -/
def formatHour (hour : Int) : String :=
  let date := civilFromDays (hour / 24)
  formatYear date.1 ++ padZero 2 date.2.1.toNat ++ padZero 2 date.2.2.toNat ++ "_"
    ++ padZero 2 (hour % 24).toNat

example : formatHour (hourOf 1771840800000000000) = "20260223_10" := by decide

/-! ## `Duration::seconds` and `DateTime + Duration` -/

/-- `NaiveDateTime::MIN`: the first instant of the year -262143. -/
def minUtc : DateTime := daysFromCivil (-262143) 1 1 * 86400 * nanosPerSecond

/-- `NaiveDateTime::MAX`: the last nanosecond of the year 262142. -/
def maxUtc : DateTime := (daysFromCivil 262143 1 1 * 86400) * nanosPerSecond - 1

/-- `i64::MAX / 1000`: the largest number of seconds a `TimeDelta` holds. -/
def maxSeconds : Nat := 9223372036854775

/-- `chrono::Duration::seconds`, in nanoseconds; `none` is the panic outside its range. -/
def seconds (n : Int) : Option Int :=
  if n.natAbs ≤ maxSeconds then some (n * nanosPerSecond) else none

/-- `DateTime + Duration`; `none` is the panic outside `chrono`'s date range. -/
def add (t : DateTime) (d : Int) : Option DateTime :=
  if minUtc ≤ t + d ∧ t + d ≤ maxUtc then some (t + d) else none

/-- `t + chrono::Duration::seconds(n)`. -/
def addSeconds (t : DateTime) (n : Int) : Option DateTime := (seconds n).bind (add t)

theorem addSeconds_eq {t t' : DateTime} {n : Int} (h : addSeconds t n = some t') : t' = t + n * nanosPerSecond := by
  obtain ⟨d, hd, hadd⟩ := Option.bind_eq_some_iff.mp h
  simp only [seconds, Option.ite_none_right_eq_some, Option.some.injEq] at hd
  simp only [add, Option.ite_none_right_eq_some, Option.some.injEq] at hadd
  rw [← hadd.2, ← hd.2]

end Chrono
end Azums
