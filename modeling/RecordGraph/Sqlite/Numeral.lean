import RecordGraph.Number.DoublePair
import RecordGraph.Number.Literal

/-!
# Numerals

How SQLite reads a double from text. The leading digits, as many as a word of 64 bits has room for,
are multiplied by a power of ten as a pair of doubles. The result is near to the written number, and
not always the nearest double.

* `Numeral.read?`: the double that a text spells.
-/
namespace RecordGraph.Sqlite.Numeral

/-- The word that leading digits spell, and the digits that it has no room for. -/
def leading : Nat → List Char → Nat × List Char
  | word, [] => (word, [])
  | word, c :: cs =>
    if word < 1844674407370955160 then leading (word * 10 + (c.toNat - '0'.toNat)) cs
    else (word, c :: cs)

/-- The same decimal with an exponent nearer to zero, as far as the word allows. -/
def settle : Nat → Nat → Int → Nat × Int
  | 0, word, e => (word, e)
  | fuel + 1, word, e =>
    if 0 < e ∧ word < 1844674407370954956 then settle fuel (word * 10) (e - 1)
    else if e < 0 ∧ word % 10 = 0 then settle fuel (word / 10) (e + 1)
    else (word, e)

/-- A word as a pair of doubles. What rounds to more than all words has no second part. -/
def pair (word : Nat) : DoublePair :=
  let x := DoublePair.ofRatio word 1
  if x.high.whole < 0x10000000000000000 then x else .ofDouble x.high

/-- The double near to `word · 10 ^ e`; what is too great for the calculation is infinite. -/
def magnitude (word : Nat) (e : Int) : Binary64 :=
  let (word, e) := settle 20 word e
  let x := ((pair word).scale e).toDouble
  if x.isNaN then .infinity false else x

/-- An exponent of more than five digits counts as ten thousand. -/
def exponent (e : Int) : Int := if 99999 < e.natAbs then e.sign * 10000 else e

/-- The double near to a written fraction. -/
def ofFraction (negative : Bool) (f : Literal.Fraction) : Binary64 :=
  let (word, rest) := leading 0 (f.whole ++ f.part)
  if word = 0 then .zero negative
  else
    let x := magnitude word (exponent f.exponent + rest.length - f.part.length)
    if negative then x.neg else x

/-- The double that a text spells, with or without a sign. -/
def read? (cs : List Char) : Option Binary64 :=
  let (negative, body) := Literal.splitSign cs
  (Literal.fraction? body).map (ofFraction negative)

end RecordGraph.Sqlite.Numeral
