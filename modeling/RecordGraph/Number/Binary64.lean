/-!
# IEEE-754 doubles as exact numbers

A `Binary64` is its 64 bits. A finite one denotes `± m · 2 ^ e` with natural `m` and integer `e`;
every operation here works on that exact number and rounds once, to the nearest double, ties to the
even significand. No operation of the machine's floating point unit is involved.

* `roundRatio`: the double nearest to a fraction; all conversions go through it.
* `ofInt`, `ofDecimal`: integers and decimal literals.
* `add`, `sub`, `mul`, `div`: sums, differences, products and quotients of doubles.
* `toInt?`: the integer a double denotes, if it is one.
* `narrow`: the nearest single precision number, widened again.
-/
namespace RecordGraph

/-- A double, by its bits. Equality is equality of bits; `Binary64.eqv` is the numeric one. -/
structure Binary64 where
  bits : UInt64
  deriving DecidableEq, Inhabited, Repr

namespace Binary64

/-- The place value of the sign bit. -/
def signUnit : Nat := 0x8000000000000000

/-- The place value of the lowest exponent bit. -/
def exponentUnit : Nat := 0x10000000000000

/-- The sign bit. -/
def negative (x : Binary64) : Bool := signUnit ≤ x.bits.toNat

/-- The eleven exponent bits. -/
def biased (x : Binary64) : Nat := x.bits.toNat / exponentUnit % 2048

/-- The 52 fraction bits. -/
def fraction (x : Binary64) : Nat := x.bits.toNat % exponentUnit

def isNaN (x : Binary64) : Bool := x.biased == 2047 && x.fraction != 0

def isInfinite (x : Binary64) : Bool := x.biased == 2047 && x.fraction == 0

def isFinite (x : Binary64) : Bool := x.biased != 2047

def isZero (x : Binary64) : Bool := x.biased == 0 && x.fraction == 0

/-- The `m` of `± m · 2 ^ e`. -/
def significand (x : Binary64) : Nat :=
  if x.biased = 0 then x.fraction else x.fraction + exponentUnit

/-- The `e` of `± m · 2 ^ e`. -/
def exponent (x : Binary64) : Int := (max x.biased 1 : Nat) - 1075

/-- A double from its sign and its magnitude bits. -/
def ofMagnitude (negative : Bool) (magnitude : Nat) : Binary64 :=
  ⟨UInt64.ofNat (if negative then signUnit + magnitude else magnitude)⟩

/-- The magnitude bits of an infinity; larger ones are NaN. -/
def infiniteMagnitude : Nat := 2047 * exponentUnit

def zero (negative : Bool) : Binary64 := ofMagnitude negative 0

def infinity (negative : Bool) : Binary64 := ofMagnitude negative infiniteMagnitude

/-- The quiet NaN without payload. -/
def nan : Binary64 := ⟨0x7ff8000000000000⟩

/-- The sign flipped, of NaN too. -/
def neg (x : Binary64) : Binary64 := ofMagnitude (!x.negative) (x.bits.toNat % signUnit)

/-- The sign taken off. -/
def abs (x : Binary64) : Binary64 := ofMagnitude false (x.bits.toNat % signUnit)

/-- `num / den` as a fraction in which `2 ^ e` is the unit. -/
def scaled (num den : Nat) (e : Int) : Nat × Nat :=
  if 0 ≤ e then (num, den * Nat.pow 2 e.toNat) else (num * Nat.pow 2 (-e).toNat, den)

/-- The integer nearest to `num / den`, a half going to the even one. -/
def roundHalfEven (num den : Nat) : Nat :=
  let q := num / den
  let r := num % den
  if den < 2 * r ∨ (2 * r = den ∧ q % 2 = 1) then q + 1 else q

/-- The exponent of the unit in which `num / den` has `precision` bits, not below `least`. -/
def unitExponent (precision : Nat) (least : Int) (num den : Nat) : Int :=
  let low : Int := (num.log2 : Int) - (den.log2 : Int) - precision
  let (n, d) := scaled num den low
  max least (if n < Nat.pow 2 precision * d then low else low + 1)

/-- The double nearest to `± num / den`, for a positive `den`. -/
def roundRatio (negative : Bool) (num den : Nat) : Binary64 :=
  if num = 0 then zero negative
  else
    let e := unitExponent 53 (-1074) num den
    let (n, d) := scaled num den e
    let magnitude := (e + 1074).toNat * exponentUnit + roundHalfEven n d
    ofMagnitude negative (min magnitude infiniteMagnitude)

def ofNat (n : Nat) : Binary64 := roundRatio false n 1

def ofInt (i : Int) : Binary64 := roundRatio (i < 0) i.natAbs 1

/-- The double nearest to `± digits · 10 ^ e`. Exponents so large that every digit string leaves
the range are answered without computing the power. -/
def ofDecimal (negative : Bool) (digits : Nat) (e : Int) : Binary64 :=
  if digits = 0 then zero negative
  else
    let width : Int := digits.log2 / 3 + 1
    if 400 < e then infinity negative
    else if e + width < -400 then zero negative
    else if 0 ≤ e then roundRatio negative (digits * Nat.pow 10 e.toNat) 1
    else roundRatio negative digits (Nat.pow 10 (-e).toNat)

/-- The magnitude of a finite double as a fraction. -/
def ratio (x : Binary64) : Nat × Nat :=
  if 0 ≤ x.exponent then (x.significand * Nat.pow 2 x.exponent.toNat, 1)
  else (x.significand, Nat.pow 2 (-x.exponent).toNat)

/-- A double as a fraction. An infinity is a power of two beyond all finite doubles. -/
def signedRatio (x : Binary64) : Int × Nat :=
  let (n, d) := x.ratio
  (if x.negative then -(n : Int) else n, d)

/-- The sum of two doubles. A sum that cancels out is a positive zero. -/
def add (x y : Binary64) : Binary64 :=
  if x.isNaN || y.isNaN then nan
  else if x.isInfinite then (if y.isInfinite && x.negative != y.negative then nan else x)
  else if y.isInfinite then y
  else
    let (a, b) := x.signedRatio
    let (c, d) := y.signedRatio
    let n := a * d + c * b
    if n = 0 then zero (x.negative && y.negative) else roundRatio (n < 0) n.natAbs (b * d)

/-- The difference of two doubles. -/
def sub (x y : Binary64) : Binary64 := x.add y.neg

/-- The product of two doubles. -/
def mul (x y : Binary64) : Binary64 :=
  let sign := x.negative != y.negative
  if x.isNaN || y.isNaN then nan
  else if x.isInfinite || y.isInfinite then
    if x.isZero || y.isZero then nan else infinity sign
  else
    let (a, b) := x.ratio
    let (c, d) := y.ratio
    roundRatio sign (a * c) (b * d)

/-- The quotient of two doubles. -/
def div (x y : Binary64) : Binary64 :=
  let sign := x.negative != y.negative
  if x.isNaN || y.isNaN then nan
  else if x.isInfinite then (if y.isInfinite then nan else infinity sign)
  else if y.isInfinite then zero sign
  else if y.isZero then (if x.isZero then nan else infinity sign)
  else
    let (a, b) := x.ratio
    let (c, d) := y.ratio
    roundRatio sign (a * d) (b * c)

/-- Numeric equality: NaN equals nothing, the two zeros are equal. -/
def eqv (x y : Binary64) : Bool :=
  !x.isNaN && !y.isNaN && (x == y || (x.isZero && y.isZero))

/-- Numeric order: NaN is neither below nor above anything. -/
def below (x y : Binary64) : Bool :=
  let (a, b) := x.signedRatio
  let (c, d) := y.signedRatio
  !x.isNaN && !y.isNaN && a * d < c * b

/-- Not NaN and not below zero; `-0.0` is not below zero. -/
def isNonneg (x : Binary64) : Bool := !x.isNaN && (!x.negative || x.isZero)

/-- The whole part of the magnitude of a finite double. -/
def whole (x : Binary64) : Nat := x.ratio.1 / x.ratio.2

/-- The integer that a finite double denotes exactly, if it denotes one. -/
def toInt? (x : Binary64) : Option Int :=
  if !x.isFinite then none
  else
    let (n, d) := x.ratio
    if n % d = 0 then some (if x.negative then -((n / d : Nat) : Int) else (n / d : Nat)) else none

/-- The nearest single precision number, as a double. NaN stays NaN, and what rounds beyond the
single range becomes infinite. -/
def narrow (x : Binary64) : Binary64 :=
  if x.isNaN then nan
  else if x.isInfinite || x.isZero then x
  else
    let (num, den) := x.ratio
    let e := unitExponent 24 (-149) num den
    let (n, d) := scaled num den e
    let m := roundHalfEven n d
    if Nat.pow 2 128 ≤ (if 0 ≤ e then m * Nat.pow 2 e.toNat else 0) then infinity x.negative
    else if 0 ≤ e then roundRatio x.negative (m * Nat.pow 2 e.toNat) 1
    else roundRatio x.negative m (Nat.pow 2 (-e).toNat)

/-- A double from the bits of a single precision number. -/
def ofSingleBits (bits : UInt32) : Binary64 :=
  let negative : Bool := 0x80000000 ≤ bits.toNat
  let exponent := bits.toNat / 0x800000 % 256
  let fraction := bits.toNat % 0x800000
  if exponent = 255 then (if fraction = 0 then infinity negative else nan)
  else
    let m := if exponent = 0 then fraction else fraction + 0x800000
    let e : Int := (max exponent 1 : Nat) - 150
    if 0 ≤ e then roundRatio negative (m * Nat.pow 2 e.toNat) 1
    else roundRatio negative m (Nat.pow 2 (-e).toNat)

end Binary64

end RecordGraph
