import RecordGraph.Sqlite.Numeral
import RecordGraph.Sqlite.Stored
import RecordGraph.Value.Receiver

/-!
# Column affinities

A column of SQLite has no type but a preference: it turns a value into the storage class it prefers
where nothing is lost, and keeps any other value as it is.

* `Affinity.ofReceiver`: the affinity a column is declared with.
* `Affinity.keep`: what a column keeps of a value.
* `Affinity.numberOf?`: the number that a text spells.
-/
namespace RecordGraph.Sqlite

/-- A preference for a storage class. -/
inductive Affinity where
  | integer
  | real
  | text
  /-- No preference. -/
  | blob
  deriving DecidableEq, Repr

namespace Affinity

/-- The type by which a column declares its affinity. -/
def typeName : Affinity → String
  | .integer => "INTEGER"
  | .real => "REAL"
  | .text => "TEXT"
  | .blob => "BLOB"

/-- The affinity of a column with a receiver. -/
def ofReceiver : Receiver → Affinity
  | .int8 | .int16 | .int32 | .int64 | .uint8 | .uint16 | .uint32 | .uint64 | .bool
  | .autoPrimaryKey => .integer
  | .float32 | .float64 => .real
  | .bytes => .blob
  | .string | .time | .uuid | .ulid => .text

/-- The blanks that may stand around a number. -/
def isSpace (c : Char) : Bool := c == ' ' || (0x09 ≤ c.toNat && c.toNat ≤ 0x0d)

def trimmed (cs : List Char) : List Char :=
  ((cs.dropWhile isSpace).reverse.dropWhile isSpace).reverse

/-- A double that is an integer strictly within the signed range becomes that integer. -/
def ofDouble (x : Binary64) : Stored :=
  match x.toInt? with
  | some i =>
    if -0x8000000000000000 < i ∧ i < 0x7fffffffffffffff then .integer (Int64.ofInt i) else .real x
  | none => .real x

/-- The number that a text spells, with blanks around it: an integer within the signed range, or a
double. -/
def numberOf? (s : String) : Option Stored :=
  let cs := trimmed s.toList
  match (Literal.readInt? cs).bind Width.signed? with
  | some i => some (.integer i)
  | none => (Numeral.read? cs).map ofDouble

/-- Whole numbers become integers, also those that a text spells. -/
def keepNumber : Stored → Stored
  | .real x => ofDouble x
  | .text s => (numberOf? s).getD (.text s)
  | other => other

/-- An integer becomes the nearest double. -/
def widen : Stored → Stored
  | .integer i => .real (Binary64.ofInt i.toInt)
  | other => other

/-- Numbers become texts. -/
def keepText : Stored → Stored
  | .integer i => .text (toString i.toInt)
  | .real x => .text (FloatLayout.column.render x)
  | other => other

/-- What a column keeps of a value. -/
def keep : Affinity → Stored → Stored
  | .integer, v => keepNumber v
  | .real, v => widen (keepNumber v)
  | .text, v => keepText v
  | .blob, v => v

end Affinity

end RecordGraph.Sqlite
