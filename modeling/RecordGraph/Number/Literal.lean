import RecordGraph.Number.Binary64
import RecordGraph.Number.Width

/-!
# Numbers read from text

* `readInt64?`, `readUInt64?`: decimal integers with an optional sign. An unsigned number takes
  no minus sign, not even before zero.
* `readDouble?`: decimal fractions with an optional exponent, and the names of infinity and NaN in
  any case. The result is the double nearest to the written number.
* `fraction?`: the parts of a decimal fraction as they are written.
-/
namespace RecordGraph.Literal

/-- The value of a decimal digit. -/
def digit? (c : Char) : Option Nat :=
  if '0' ≤ c ∧ c ≤ '9' then some (c.toNat - '0'.toNat) else none

/-- The number a digit string spells. -/
def natOfDigits (cs : List Char) : Nat :=
  cs.foldl (fun n c => n * 10 + (c.toNat - '0'.toNat)) 0

def isDigit (c : Char) : Bool := (digit? c).isSome

/-- A nonempty string of digits. -/
def readNat? (cs : List Char) : Option Nat :=
  if cs ≠ [] ∧ cs.all isDigit then some (natOfDigits cs) else none

/-- A sign, and what follows it. -/
def splitSign : List Char → Bool × List Char
  | '-' :: cs => (true, cs)
  | '+' :: cs => (false, cs)
  | cs => (false, cs)

/-- A signed decimal integer. -/
def readInt? (cs : List Char) : Option Int :=
  let (negative, digits) := splitSign cs
  (readNat? digits).map fun n => if negative then -(n : Int) else n

def readInt64? (s : String) : Option Int64 :=
  (readInt? s.toList).bind Width.signed?

def readUInt64? (s : String) : Option UInt64 :=
  let digits := match s.toList with
    | '+' :: cs => cs
    | cs => cs
  (readNat? digits).bind Width.unsigned?

def lower (cs : List Char) : List Char := cs.map Char.toLower

/-- An exponent mark and its integer, or nothing at all. -/
def readExponent? : List Char → Option Int
  | [] => some 0
  | c :: cs => if c = 'e' ∨ c = 'E' then readInt? cs else none

/-- A decimal fraction: the digits before and behind the point, and the exponent. -/
structure Fraction where
  whole : List Char
  part : List Char
  exponent : Int

/-- Digits with at most one point among them, at least one digit, then an optional exponent. -/
def fraction? (cs : List Char) : Option Fraction :=
  let whole := cs.takeWhile isDigit
  let afterWhole := cs.dropWhile isDigit
  let (part, rest) := match afterWhole with
    | '.' :: r => (r.takeWhile isDigit, r.dropWhile isDigit)
    | r => ([], r)
  if whole ++ part = [] then none else (readExponent? rest).map fun e => ⟨whole, part, e⟩

/-- The double nearest to a written fraction. -/
def readFraction? (negative : Bool) (cs : List Char) : Option Binary64 :=
  (fraction? cs).map fun f =>
    Binary64.ofDecimal negative (natOfDigits (f.whole ++ f.part)) (f.exponent - f.part.length)

def readDouble? (s : String) : Option Binary64 :=
  let (negative, body) := splitSign s.toList
  let name := lower body
  if name = "inf".toList ∨ name = "infinity".toList then some (Binary64.infinity negative)
  else if name = "nan".toList then
    some (if negative then Binary64.nan.neg else Binary64.nan)
  else readFraction? negative body

end RecordGraph.Literal
