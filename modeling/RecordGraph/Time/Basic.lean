import RecordGraph.Time.Calendar

/-!
# Instants

A `Time` is a UTC instant: whole seconds since 1970-01-01T00:00:00Z, and nanoseconds within that
second. Nanoseconds of a full second and more mean the leap second after second 59.

* `Time.stored`: the text form of stored times, with microseconds and a `Z`. It has a fixed width
  between the years 0 and 9999.
* `Time.micros`: the instant in microseconds.
-/
namespace RecordGraph

/-- A UTC instant. -/
structure Time where
  seconds : Int
  nanos : Nat
  deriving DecidableEq, Inhabited, Repr

namespace Time

/-- Whole microseconds since 1970. -/
def micros (t : Time) : Int := t.seconds * 1000000 + (t.nanos / 1000 : Nat)

/-- The date an instant falls on. -/
def date (t : Time) : Date := Date.ofNumber (t.seconds / 86400)

/-- The second of the day, without the leap second. -/
def secondOfDay (t : Time) : Nat := (t.seconds % 86400).toNat

/-- The instant at whole seconds, if its year can be written. -/
def ofSeconds? (seconds : Int) : Option Time :=
  if (Date.ofNumber (seconds / 86400)).inRange then some ⟨seconds, 0⟩ else none

/-- A number with at least `width` digits. -/
def padded (width n : Nat) : List Char :=
  let digits := Nat.toDigits 10 n
  List.replicate (width - digits.length) '0' ++ digits

/-- Four digits; years beyond them carry a sign. -/
def yearText (y : Int) : List Char :=
  if 0 ≤ y ∧ y ≤ 9999 then padded 4 y.toNat
  else (if y < 0 then '-' else '+') :: padded 4 y.natAbs

def dateText (d : Date) : List Char :=
  yearText d.year ++ '-' :: padded 2 d.month ++ '-' :: padded 2 d.day

/-- Hours, minutes and seconds; a leap second is second 60. -/
def clockText (t : Time) : List Char :=
  let s := t.secondOfDay
  let leap := if 1000000000 ≤ t.nanos then 1 else 0
  padded 2 (s / 3600) ++ ':' :: padded 2 (s / 60 % 60) ++ ':' :: padded 2 (s % 60 + leap)

/-- Nanoseconds without the leap second. -/
def subsecond (t : Time) : Nat := if 1000000000 ≤ t.nanos then t.nanos - 1000000000 else t.nanos

/-- The text form of stored times: date, clock, six digits of a second. -/
def stored (t : Time) : String :=
  String.ofList
    (dateText t.date ++ 'T' :: clockText t ++ '.' :: padded 6 (t.subsecond / 1000) ++ ['Z'])

/-- A fraction of 0, 3, 6 or 9 digits, as many as it takes. -/
def fractionText (nanos : Nat) : List Char :=
  if nanos = 0 then []
  else if nanos % 1000000 = 0 then '.' :: padded 3 (nanos / 1000000)
  else if nanos % 1000 = 0 then '.' :: padded 6 (nanos / 1000)
  else '.' :: padded 9 nanos

/-- The text form of times in encoded queries: no digit of the instant is dropped. -/
def exact (t : Time) : String :=
  String.ofList (dateText t.date ++ 'T' :: clockText t ++ fractionText t.subsecond ++ ['Z'])

end Time

end RecordGraph
