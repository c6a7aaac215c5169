import RecordGraph.Number.DoublePair

/-!
# Doubles as decimal text

`shortest` finds the shortest decimal that reads back as a given double, and among the decimals of
that length the nearest; `approximate` finds a decimal of eighteen or nineteen digits near to it.
A `FloatLayout` says which digits are taken and how they are laid out; `FloatLayout.render` writes
them.

* `FloatLayout.plain`: values in messages and statement text. Always positional, no `.0`.
* `FloatLayout.json`: numbers in JSON text. Positional from `1e-5` up to `1e16`, with a fraction.
* `FloatLayout.column`: numbers that SQLite turns into text. Fifteen digits, always a fraction.
-/
namespace RecordGraph

/-- `digits · 10 ^ exponent`. -/
structure Decimal where
  digits : Nat
  exponent : Int
  deriving DecidableEq, Inhabited, Repr

/-- Which of two equally near decimals is taken. -/
inductive HalfRule where
  | upward
  | toEven
  deriving DecidableEq, Repr

namespace Decimal

/-- The decimal digits of a number. -/
def digitsOf (n : Nat) : List Char := Nat.toDigits 10 n

/-- The `p` with `10 ^ p ≤ num / den < 10 ^ (p + 1)`, for positive `num` and `den`. -/
def magnitude (num den : Nat) : Int :=
  if den ≤ num then (digitsOf (num / den)).length - 1
  else -((digitsOf ((den - 1) / num)).length : Int)

/-- `num / den` as a fraction in which `10 ^ k` is the unit. -/
def scaled (num den : Nat) (k : Int) : Nat × Nat :=
  if 0 ≤ k then (num, den * Nat.pow 10 k.toNat) else (num * Nat.pow 10 (-k).toNat, den)

/-- The decimal below and above (or at) `num / den` on the grid `10 ^ k`, the nearer of those that
read back as `x`. -/
def onGrid (rule : HalfRule) (x : Binary64) (num den : Nat) (k : Int) : Option Decimal :=
  let (n, d) := scaled num den k
  let low := n / d
  let rest := n % d
  let readsBack (digits : Nat) : Bool := Binary64.ofDecimal x.negative digits k == x
  let upper :=
    d < 2 * rest || (2 * rest == d && (rule == .upward || low % 2 == 1))
  match readsBack low, readsBack (low + 1) with
  | true, true => some ⟨if upper then low + 1 else low, k⟩
  | true, false => some ⟨low, k⟩
  | false, true => some ⟨low + 1, k⟩
  | false, false => none

/-- The shortest decimal that reads back as the finite, nonzero `x`. Seventeen digits always do. -/
def shortest (rule : HalfRule) (x : Binary64) : Decimal :=
  let (num, den) := x.ratio
  let p := magnitude num den
  ((List.range 17).findSome? fun (i : Nat) => onGrid rule x num den (p - i)).getD ⟨0, 0⟩

/-- The greatest double that is a signed word of 64 bits, times `10 ^ e`. -/
def wordBound (e : Int) : Binary64 := .ofDecimal false 9223372036854774784 e

/-- The powers of ten that a double is multiplied by, each as long as the double is on the wrong side
of a bound: above it on the way down, below it on the way up. -/
def stages (down : Bool) : List (Nat × Binary64) :=
  if down then [(100, wordBound 100), (10, wordBound 10), (1, wordBound 0)]
  else [(100, wordBound (-101)), (10, wordBound (-11)), (1, .ofDecimal false 922337203685477478 0)]

/-- One stage on the way to a bound. The exponent counts the powers of ten that were taken. -/
def approach (down : Bool) (state : Int × DoublePair) (stage : Nat × Binary64) :
    Int × DoublePair :=
  let (size, bound) := stage
  let test (x : Binary64) : Bool := if down then bound.below x else x.below bound
  let (n, x) := DoublePair.during test (.tenTo down size) 12 state.2
  (if down then state.1 + n * size else state.1 - n * size, x)

/-- A decimal of eighteen or nineteen digits near to the magnitude of the finite, nonzero `x`. A
pair of doubles is multiplied by powers of ten, the great ones first, until its whole part has so
many digits; the errors of these products are left in the last digits. -/
def approximate (x : Binary64) : Decimal :=
  let down := (wordBound 0).below x.abs
  let (e, x) := (stages down).foldl (approach down) (0, .ofDouble x.abs)
  ⟨x.whole, e⟩

/-- The first `count` digits of a decimal, rounded by the next one. -/
def rounded (count : Nat) (d : Decimal) : Decimal :=
  match (digitsOf d.digits).length - count with
  | 0 => d
  | more + 1 =>
    ⟨(d.digits + 5 * Nat.pow 10 more) / Nat.pow 10 (more + 1), d.exponent + (more + 1)⟩

/-- The digits without trailing zeros, and the place of the point: the number is
`0.d₁d₂… · 10 ^ point`. -/
def significant (d : Decimal) : List Char × Int :=
  let all := digitsOf d.digits
  ((all.reverse.dropWhile (· == '0')).reverse, all.length + d.exponent)

end Decimal

/-- Which digits of a double are written. -/
inductive DigitRule where
  /-- As few as read back as the double. -/
  | shortest (half : HalfRule)
  /-- So many of the approximation. -/
  | approximate (count : Nat)
  deriving DecidableEq, Repr

/-- The decimal that a rule takes for a finite, nonzero double. -/
def DigitRule.decimal : DigitRule → Binary64 → Decimal
  | .shortest half, x => Decimal.shortest half x
  | .approximate count, x => (Decimal.approximate x).rounded count

/-- How a double is written. -/
structure FloatLayout where
  digits : DigitRule
  /-- Scientific exponents written positionally; `none` for all. -/
  positional : Option (Int × Int)
  /-- Whole numbers written positionally keep a `.0`. -/
  fraction : Bool
  /-- A single digit before an exponent keeps a `.0`. -/
  scientificFraction : Bool
  /-- The least number of digits of an exponent. -/
  exponentWidth : Nat
  /-- Zero keeps its sign. -/
  signedZero : Bool
  nan : String
  infinity : String
  negativeInfinity : String

namespace FloatLayout

/-- Doubles in messages: positional, whole numbers without a fraction. -/
def plain : FloatLayout where
  digits := .shortest .upward
  positional := none
  fraction := false
  scientificFraction := false
  exponentWidth := 1
  signedZero := true
  nan := "NaN"
  infinity := "inf"
  negativeInfinity := "-inf"

/-- Doubles in JSON text: positional with a fraction from `1e-5` up to `1e16`, else with a signed
exponent; JSON has no other numbers than finite ones. -/
def json : FloatLayout where
  digits := .shortest .toEven
  positional := some (-5, 15)
  fraction := true
  scientificFraction := false
  exponentWidth := 1
  signedZero := true
  nan := "null"
  infinity := "null"
  negativeInfinity := "null"

/-- Doubles in a text column of SQLite: fifteen digits, positional from `1e-4` up to `1e15`, always
with a fraction. -/
def column : FloatLayout where
  digits := .approximate 15
  positional := some (-4, 14)
  fraction := true
  scientificFraction := true
  exponentWidth := 2
  signedZero := false
  nan := "NaN"
  infinity := "Inf"
  negativeInfinity := "-Inf"

def isPositional (layout : FloatLayout) (exponent : Int) : Bool :=
  match layout.positional with
  | none => true
  | some (least, most) => least ≤ exponent && exponent ≤ most

/-- Digits around the point. -/
def positionally (layout : FloatLayout) (digits : List Char) (point : Int) : List Char :=
  if point ≤ 0 then '0' :: '.' :: List.replicate (-point).toNat '0' ++ digits
  else if digits.length ≤ point.toNat then
    digits ++ List.replicate (point.toNat - digits.length) '0'
      ++ (if layout.fraction then ['.', '0'] else [])
  else digits.take point.toNat ++ '.' :: digits.drop point.toNat

/-- One digit before the point, and a signed exponent. -/
def scientifically (layout : FloatLayout) (digits : List Char) (exponent : Int) : List Char :=
  let mantissa := match digits with
    | [] => []
    | [d] => if layout.scientificFraction then [d, '.', '0'] else [d]
    | d :: rest => d :: '.' :: rest
  let size := Decimal.digitsOf exponent.natAbs
  mantissa ++ 'e' :: (if exponent < 0 then '-' else '+')
    :: List.replicate (layout.exponentWidth - size.length) '0' ++ size

/-- The text of a double. -/
def render (layout : FloatLayout) (x : Binary64) : String :=
  if x.isNaN then layout.nan
  else if x.isInfinite then (if x.negative then layout.negativeInfinity else layout.infinity)
  else if x.isZero then
    (if x.negative && layout.signedZero then "-" else "")
      ++ (if layout.fraction then "0.0" else "0")
  else
    let (digits, point) := (layout.digits.decimal x).significant
    let body :=
      if layout.isPositional (point - 1) then layout.positionally digits point
      else layout.scientifically digits (point - 1)
    (if x.negative then "-" else "") ++ String.ofList body

end FloatLayout

end RecordGraph
