import RecordGraph.Json.Basic

/-!
# What written numbers mean

An integer without fraction and exponent that fits 64 bits is that integer. Every other number is a
double, read from its first digits as far as they fit 64 bits and the decimal exponent by one
rounded multiplication or division, so the last bit may be off; a number beyond all doubles is
refused. `-0` is a double.
-/
namespace RecordGraph.Json

/-- A written number: an integer that fits 64 bits, or a double. -/
inductive Number where
  | unsigned (n : UInt64)
  | negative (i : Int64)
  | float (x : Binary64)

/-- The parts of a written number: sign, digits before and after the point, exponent. -/
structure Written where
  negative : Bool
  whole : List Char
  fraction : Option (List Char)
  exponent : Option Int

def Written.ofChars (cs : List Char) : Written :=
  let (negative, cs) := match cs with
    | '-' :: rest => (true, rest)
    | cs => (false, cs)
  let whole := cs.takeWhile Literal.isDigit
  let cs := cs.dropWhile Literal.isDigit
  let (fraction, cs) := match cs with
    | '.' :: rest => (some (rest.takeWhile Literal.isDigit), rest.dropWhile Literal.isDigit)
    | cs => (none, cs)
  let exponent := match cs with
    | _ :: rest => Literal.readInt? rest
    | [] => none
  ⟨negative, whole, fraction, exponent⟩

/-- Digits taken into a 64 bit number while it fits; the digits that are left over. -/
def take64 (n : Nat) : List Char → Nat × List Char
  | [] => (n, [])
  | c :: rest =>
    let next := n * 10 + (c.toNat - '0'.toNat)
    if next < 0x10000000000000000 then take64 next rest else (n, c :: rest)

/-- `n · 10 ^ e` by one multiplication or division, or none if it leaves the range. A negative
exponent beyond the powers that doubles have is taken in steps. -/
def scaleSteps : Nat → Binary64 → Int → Option Binary64
  | 0, x, _ => some x
  | fuel + 1, x, e =>
    if e.natAbs ≤ 308 then
      let power := Binary64.ofDecimal false 1 e.natAbs
      if 0 ≤ e then
        let y := x.mul power
        if y.isInfinite then none else some y
      else some (x.div power)
    else if x.isZero then some x
    else if 0 ≤ e then none
    else scaleSteps fuel (x.div (Binary64.ofDecimal false 1 308)) (e + 308)

/-- `± n · 10 ^ e` as a double; four steps take every number out of the range. -/
def scaled? (negative : Bool) (n : Nat) (e : Int) : Option Binary64 :=
  (scaleSteps 8 (Binary64.ofNat n) e).map fun x => if negative then x.neg else x

/-- The exponent of ten beyond which an exponent is not read but judged by its sign. -/
def farExponent : Int := 0x80000000

/-- The double that a number with a fraction, an exponent or too many digits is read as. -/
def Written.float? (w : Written) : Option Binary64 :=
  let (n, dropped) := take64 0 w.whole
  let fraction := w.fraction.getD []
  let (n, unused) := take64 n fraction
  let e : Int := dropped.length - (fraction.length - unused.length : Nat)
  match w.exponent with
  | none => scaled? w.negative n e
  | some given =>
    if farExponent ≤ given.natAbs then
      if n = 0 ∨ given < 0 then some (Binary64.zero w.negative) else none
    else scaled? w.negative n (e + given)

/-- The meaning of a written number. -/
def number? (cs : List Char) : Option Number :=
  let w := Written.ofChars cs
  let n := Literal.natOfDigits w.whole
  if w.fraction.isNone ∧ w.exponent.isNone ∧ n < 0x10000000000000000 then
    if !w.negative then some (.unsigned (UInt64.ofNat n))
    else if n = 0 ∨ 0x8000000000000000 < n then some (.float (Binary64.ofInt n).neg)
    else some (.negative (Int64.ofInt (-(n : Int))))
  else w.float?.map .float

/-- A signed 64 bit integer. -/
def int64? : Json → Option Int64
  | .number cs => match number? cs with
    | some (.unsigned n) => Width.signed? n.toNat
    | some (.negative i) => some i
    | _ => none
  | _ => none

/-- An unsigned 64 bit integer. -/
def uint64? : Json → Option UInt64
  | .number cs => match number? cs with
    | some (.unsigned n) => some n
    | _ => none
  | _ => none

/-- A double; integers count too. -/
def float? : Json → Option Binary64
  | .number cs => (number? cs).map fun
    | .unsigned n => Binary64.ofNat n.toNat
    | .negative i => Binary64.ofInt i.toInt
    | .float x => x
  | _ => none

def bool? : Json → Option Bool
  | .bool b => some b
  | _ => none

end RecordGraph.Json
