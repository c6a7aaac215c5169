import RecordGraph.Number.Binary64

/-!
# Pairs of doubles

A `DoublePair` is the unevaluated sum of two doubles. The second one holds what the first has no
room for, so a pair keeps about twice the digits of a double. Its arithmetic is made of the rounded
arithmetic of doubles, and the last digits of a product are not to be relied on: whoever converts
numbers by way of pairs gets a result that is near, but not always the nearest.

* `DoublePair.ofRatio`: the pair next to a fraction.
* `DoublePair.mul`: the product of two pairs.
* `DoublePair.scale`: a pair times a power of ten.
-/
namespace RecordGraph

/-- The sum of two doubles, the second of which is small beside the first. -/
structure DoublePair where
  high : Binary64
  low : Binary64
  deriving DecidableEq, Inhabited, Repr

namespace DoublePair

/-- A double alone. -/
def ofDouble (x : Binary64) : DoublePair := ⟨x, .zero false⟩

/-- The double nearest to `num / den`, and the one nearest to what is left, for a positive
`den`. -/
def ofRatio (num den : Nat) : DoublePair :=
  let high := Binary64.roundRatio false num den
  let (n, d) := high.ratio
  let left : Int := (num * d : Nat) - (n * den : Nat)
  ⟨high, .roundRatio (left < 0) left.natAbs (den * d)⟩

/-- The double nearest to a pair. -/
def toDouble (x : DoublePair) : Binary64 := x.high.add x.low

/-- A double without the lower half of its digits. The product of two such doubles is exact. -/
def upper (x : Binary64) : Binary64 := ⟨x.bits &&& 0xfffffffffc000000⟩

/-- The product of two doubles: both are cut in halves, and the products of the halves are added up
from the greatest to the least, with the error of each sum. -/
def product (x y : Binary64) : DoublePair :=
  let xRest := x.sub (upper x)
  let yRest := y.sub (upper y)
  let outer := (upper x).mul (upper y)
  let inner := ((upper x).mul yRest).add (xRest.mul (upper y))
  let sum := outer.add inner
  ⟨sum, ((outer.sub sum).add inner).add (xRest.mul yRest)⟩

/-- The product of two pairs. That of the two small doubles is too small to count. -/
def mul (x y : DoublePair) : DoublePair :=
  let p := product x.high y.high
  let rest := ((x.high.mul y.low).add (x.low.mul y.high)).add p.low
  let high := p.high.add rest
  ⟨high, (p.high.sub high).add rest⟩

/-- `10 ^ e` as a pair, upwards or downwards. -/
def tenTo (negative : Bool) (e : Nat) : DoublePair :=
  if negative then ofRatio 1 (Nat.pow 10 e) else ofRatio (Nat.pow 10 e) 1

/-- A pair multiplied by a factor so many times. -/
def times (factor : DoublePair) : Nat → DoublePair → DoublePair
  | 0, x => x
  | n + 1, x => times factor n (x.mul factor)

/-- A pair times `10 ^ e`, by the hundreds, the tens and the ones of `e`. -/
def scale (x : DoublePair) (e : Int) : DoublePair :=
  let n := e.natAbs
  [(100, n / 100), (10, n % 100 / 10), (1, n % 10)].foldl
    (fun x (step, count) => times (tenTo (e < 0) step) count x) x

/-- A pair multiplied by a factor as long as its first double passes a test, and how many times that
was; at most as often as there is fuel. -/
def during (test : Binary64 → Bool) (factor : DoublePair) : Nat → DoublePair → Nat × DoublePair
  | 0, x => (0, x)
  | fuel + 1, x =>
    if test x.high then
      let (n, x) := during test factor fuel (x.mul factor)
      (n + 1, x)
    else (0, x)

/-- The whole part of a positive pair. Both doubles lose their fractions. -/
def whole (x : DoublePair) : Nat :=
  if x.low.negative then x.high.whole - x.low.whole else x.high.whole + x.low.whole

end DoublePair

end RecordGraph
