/-!
# The proleptic Gregorian calendar

Days are numbered from 1970-01-01, which is day 0, in both directions. A year is found by its first
day, a month by its first day within the year, so a date is at the same time a number and a place
in the calendar.

* `yearOf`: the year a day falls in.
* `Date.ofDay`, `Date.day`: from day numbers to dates and back.
-/
namespace RecordGraph.Calendar

def isLeap (y : Int) : Bool := y % 4 == 0 && (y % 100 != 0 || y % 400 == 0)

/-- The number of January 1st of a year. -/
def yearStart (y : Int) : Int :=
  let p := y - 1
  365 * p + p / 4 - p / 100 + p / 400 - 719162

/-- The year that contains a day: a guess from the mean length of a year, then the neighbour that
fits. -/
def yearOf (day : Int) : Int :=
  let guess := (day + 719162) * 400 / 146097 + 1
  if yearStart (guess + 1) ≤ day then guess + 1
  else if yearStart guess ≤ day then guess
  else guess - 1

/-- The days of a year before its `m`-th month. -/
def monthStart (leap : Bool) (m : Nat) : Nat :=
  let extra := if leap && 2 < m then 1 else 0
  match m with
  | 0 | 1 => 0
  | 2 => 31
  | 3 => 59 + extra
  | 4 => 90 + extra
  | 5 => 120 + extra
  | 6 => 151 + extra
  | 7 => 181 + extra
  | 8 => 212 + extra
  | 9 => 243 + extra
  | 10 => 273 + extra
  | 11 => 304 + extra
  | 12 => 334 + extra
  | _ => 365 + extra

/-- The month that contains the `n`-th day of a year, counted from 0. -/
def monthOf (leap : Bool) (n : Nat) : Nat :=
  ((List.range 11).map (12 - ·)).find? (fun m => decide (monthStart leap m ≤ n)) |>.getD 1

def monthLength (y : Int) (m : Nat) : Nat := monthStart (isLeap y) (m + 1) - monthStart (isLeap y) m

end RecordGraph.Calendar

namespace RecordGraph

open Calendar

/-- A date of the calendar; the year before 1 is 0. -/
structure Date where
  year : Int
  month : Nat
  day : Nat
  deriving DecidableEq, Inhabited, Repr

namespace Date

/-- The date with a given day number. -/
def ofNumber (n : Int) : Date :=
  let y := yearOf n
  let rest := (n - yearStart y).toNat
  let m := monthOf (isLeap y) rest
  ⟨y, m, rest - monthStart (isLeap y) m + 1⟩

/-- The number of a date. -/
def number (d : Date) : Int :=
  yearStart d.year + (monthStart (isLeap d.year) d.month : Nat) + d.day - 1

/-- The month and day exist in the year. -/
def exists? (d : Date) : Bool :=
  1 ≤ d.month && d.month ≤ 12 && 1 ≤ d.day && d.day ≤ monthLength d.year d.month

/-- The years that a time may lie in. -/
def inRange (d : Date) : Bool := -262143 ≤ d.year && d.year ≤ 262142

end Date

end RecordGraph
