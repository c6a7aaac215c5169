import RecordGraph.Number.Literal
import RecordGraph.Text.Blank
import RecordGraph.Time.Basic

/-!
# Times read from text

* `Time.parse?`: the text forms databases hand back: RFC 3339 with an offset, a date and a clock
  without one, or a date alone.
* `Time.parseExact?`: the text form in encoded queries, with blanks allowed between its parts.

Both read second 60 as a leap second, and drop the digits of a second after the ninth.
-/
namespace RecordGraph

/-- A date, a clock and an offset as written. -/
structure Stamp where
  year : Int
  month : Nat
  day : Nat
  hour : Nat
  minute : Nat
  second : Nat
  nanos : Nat
  /-- Seconds east of UTC. -/
  offset : Int

namespace Stamp

/-- The instant a stamp names, if its parts are within their bounds. -/
def time? (s : Stamp) : Option Time :=
  let date : Date := ⟨s.year, s.month, s.day⟩
  if date.exists? && date.inRange && s.hour ≤ 23 && s.minute ≤ 59 && s.second ≤ 60
      && -86400 < s.offset && s.offset < 86400 then
    let (second, leap) := if s.second = 60 then (59, 1000000000) else (s.second, 0)
    let clock : Nat := s.hour * 3600 + s.minute * 60 + second
    let t : Time := ⟨date.number * 86400 + clock - s.offset, s.nanos + leap⟩
    if t.date.inRange then some t else none
  else none

end Stamp

namespace Time

/-- A reader: the value at the start of a text, and the rest of it. -/
abbrev Scan (α : Type) := List Char → Option (α × List Char)

/-- Between `least` and `most` digits. -/
def scanNumber (least most : Nat) : Scan Nat := fun cs =>
  let digits := (cs.take most).takeWhile Literal.isDigit
  if digits.length < least then none
  else some (Literal.natOfDigits digits, cs.drop digits.length)

def scanChar (c : Char) : Scan Unit
  | [] => none
  | d :: cs => if d = c then some ((), cs) else none

/-- Digits of a second: nine count, the others are dropped. -/
def scanNanos : Scan Nat := fun cs =>
  let digits := (cs.take 9).takeWhile Literal.isDigit
  if digits = [] then none
  else some (Literal.natOfDigits digits * Nat.pow 10 (9 - digits.length),
    (cs.drop digits.length).dropWhile Literal.isDigit)

/-- A point and digits of a second, or neither. -/
def scanFraction : Scan Nat
  | '.' :: cs => scanNanos cs
  | cs => some (0, cs)

/-- `Z`, or a signed offset of hours and minutes; `colon` reads what stands between them. -/
def scanOffset (colon : List Char → Option (List Char)) : Scan Int
  | [] => none
  | c :: cs =>
    if c = 'Z' ∨ c = 'z' then some (0, cs)
    else if c = '+' ∨ c = '-' ∨ c = '−' then do
      let (hours, cs) ← scanNumber 2 2 cs
      let cs ← colon cs
      let (minutes, cs) ← scanNumber 2 2 cs
      if 60 ≤ minutes then none
      else
        let seconds : Int := (hours * 3600 + minutes * 60 : Nat)
        some (if c = '+' then seconds else -seconds, cs)
    else none

/-- A `T`, `t` or blank between date and clock. -/
def scanSeparator : Scan Unit
  | c :: cs => if c = 'T' ∨ c = 't' ∨ c = ' ' then some ((), cs) else none
  | [] => none

/-- RFC 3339, every number in its full width. -/
def parseStandard? (cs : List Char) : Option Time := do
  let (year, cs) ← scanNumber 4 4 cs
  let (_, cs) ← scanChar '-' cs
  let (month, cs) ← scanNumber 2 2 cs
  let (_, cs) ← scanChar '-' cs
  let (day, cs) ← scanNumber 2 2 cs
  let (_, cs) ← scanSeparator cs
  let (hour, cs) ← scanNumber 2 2 cs
  let (_, cs) ← scanChar ':' cs
  let (minute, cs) ← scanNumber 2 2 cs
  let (_, cs) ← scanChar ':' cs
  let (second, cs) ← scanNumber 2 2 cs
  let (nanos, cs) ← scanFraction cs
  let (offset, cs) ← scanOffset (fun r => (scanChar ':' r).map Prod.snd) cs
  if cs = [] then (⟨year, month, day, hour, minute, second, nanos, offset⟩ : Stamp).time? else none

/-- A number of one or two digits after any blanks. -/
def scanShort : Scan Nat := fun cs => scanNumber 1 2 (Text.trimStart cs)

/-- A year after any blanks: up to four digits, or any number of them behind a sign. -/
def scanYear : Scan Int := fun cs =>
  match Text.trimStart cs with
  | '-' :: cs => (scanNumber 1 cs.length cs).map fun (y, cs) => (-(y : Int), cs)
  | '+' :: cs => (scanNumber 1 cs.length cs).map fun (y, cs) => ((y : Int), cs)
  | cs => (scanNumber 1 4 cs).map fun (y, cs) => ((y : Int), cs)

/-- A date whose numbers may be short; `blanks` reads what may stand before each hyphen. -/
def scanDate (blanks : List Char → List Char) : Scan (Int × Nat × Nat) := fun cs => do
  let (year, cs) ← scanYear cs
  let (_, cs) ← scanChar '-' (blanks cs)
  let (month, cs) ← scanShort cs
  let (_, cs) ← scanChar '-' (blanks cs)
  let (day, cs) ← scanShort cs
  some ((year, month, day), cs)

/-- A clock whose numbers may be short; `blanks` reads what may stand before each colon. -/
def scanClock (blanks : List Char → List Char) : Scan (Nat × Nat × Nat × Nat) := fun cs => do
  let (hour, cs) ← scanShort cs
  let (_, cs) ← scanChar ':' (blanks cs)
  let (minute, cs) ← scanShort cs
  let (_, cs) ← scanChar ':' (blanks cs)
  let (second, cs) ← scanShort cs
  let (nanos, cs) ← scanFraction cs
  some ((hour, minute, second, nanos), cs)

/-- A date and a clock in UTC, with `separator` between them. -/
def parseLocal? (separator : List Char → Option (List Char)) (cs : List Char) : Option Time := do
  let ((year, month, day), cs) ← scanDate id cs
  let cs ← separator cs
  let ((hour, minute, second, nanos), cs) ← scanClock id cs
  if cs = [] then (⟨year, month, day, hour, minute, second, nanos, 0⟩ : Stamp).time? else none

/-- A date alone, for its midnight. -/
def parseDate? (cs : List Char) : Option Time := do
  let ((year, month, day), cs) ← scanDate id cs
  if cs = [] then (⟨year, month, day, 0, 0, 0, 0, 0⟩ : Stamp).time? else none

/-- The time that a text handed back by a database names. -/
def parse? (s : String) : Option Time :=
  let cs := s.toList
  parseStandard? cs
    <|> parseLocal? (fun r => some (Text.trimStart r)) cs
    <|> parseLocal? (fun r => (scanChar 'T' r).map Prod.snd) cs
    <|> parseDate? cs

/-- `UTC` in any case, `Z` or a numeric offset whose colon may be blanks or missing. -/
def scanZone : Scan Int := fun cs =>
  if (cs.take 3).map Char.toUpper = ['U', 'T', 'C'] then some (0, cs.drop 3)
  else scanOffset (fun r => some (r.dropWhile fun c => c = ':' || Text.isBlank c)) cs

/-- The time in an encoded query. -/
def parseExact? (s : String) : Option Time := do
  let ((year, month, day), cs) ← scanDate Text.trimStart s.toList
  let (_, cs) ← scanSeparator cs
  let ((hour, minute, second, nanos), cs) ← scanClock Text.trimStart cs
  let (offset, cs) ← scanZone (Text.trimStart cs)
  if Text.trimStart cs = [] then
    (⟨year, month, day, hour, minute, second, nanos, offset⟩ : Stamp).time?
  else none

end Time

end RecordGraph
