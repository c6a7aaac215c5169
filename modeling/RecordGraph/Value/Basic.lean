import RecordGraph.Number.Decimal
import RecordGraph.Number.Width
import RecordGraph.Text.Quoted
import RecordGraph.Time.Basic
import RecordGraph.Value.Uuid

/-!
# Column values

A `Value` is one column value, raw from a database or decoded. ULIDs, JSON documents and numbers of
any precision are texts. `Value.key?` projects a value to the `Key` by which rows are identified:
unsigned numbers that fit a signed one are that signed number, so a key read back is the key that
was written.
-/
namespace RecordGraph

/-- A column value. -/
inductive Value where
  | null
  | bool (b : Bool)
  | int (i : Int64)
  | uint (u : UInt64)
  | float (x : Binary64)
  | text (s : String)
  | bytes (b : List UInt8)
  | time (t : Time)
  | uuid (u : Uuid)
  deriving DecidableEq, Inhabited

/-- What identifies a row. Times count in microseconds, floats by their bits. -/
inductive Key where
  | bool (b : Bool)
  | int (i : Int64)
  | uint (u : UInt64)
  | float (bits : UInt64)
  | text (s : String)
  | bytes (b : List UInt8)
  | time (micros : Int)
  | uuid (u : Uuid)
  deriving DecidableEq, Inhabited

namespace Value

def isNull : Value → Bool
  | .null => true
  | _ => false

/-- A signed integer; an unsigned one has to fit. -/
def ofUnsigned? (u : UInt64) : Option Int64 := Width.signed? u.toNat

def asInt? : Value → Option Int64
  | .int i => some i
  | .uint u => ofUnsigned? u
  | .bool b => some (if b then 1 else 0)
  | _ => none

def asFloat? : Value → Option Binary64
  | .float x => some x
  | .int i => some (Binary64.ofInt i.toInt)
  | .uint u => some (Binary64.ofNat u.toNat)
  | _ => none

def asText? : Value → Option String
  | .text s => some s
  | _ => none

def asBool? : Value → Option Bool
  | .bool b => some b
  | .int i => some (i != 0)
  | _ => none

def asTime? : Value → Option Time
  | .time t => some t
  | _ => none

def asUuid? : Value → Option Uuid
  | .uuid u => some u
  | _ => none

/-- Equality of values; floats compare as numbers. -/
def same : Value → Value → Bool
  | .float x, .float y => x.eqv y
  | a, b => a == b

/-- The key of a value; null has none. -/
def key? : Value → Option Key
  | .null => none
  | .bool b => some (.bool b)
  | .int i => some (.int i)
  | .uint u => some (match ofUnsigned? u with
    | some i => .int i
    | none => .uint u)
  | .float x => some (.float x.bits)
  | .text s => some (.text s)
  | .bytes b => some (.bytes b)
  | .time t => some (.time t.micros)
  | .uuid u => some (.uuid u)

/-- The text of a value in messages and statement texts. -/
def shown : Value → String
  | .null => "NULL"
  | .bool b => if b then "true" else "false"
  | .int i => toString i.toInt
  | .uint u => toString u.toNat
  | .float x => FloatLayout.plain.render x
  | .text s => Text.quoted s
  | .bytes b => "<" ++ toString b.length ++ " bytes>"
  | .time t => t.stored
  | .uuid u => u.text

end Value

namespace Key

/-- The rank of a key's kind. -/
def rank : Key → Nat
  | .bool _ => 0
  | .int _ => 1
  | .uint _ => 2
  | .float _ => 3
  | .text _ => 4
  | .bytes _ => 5
  | .time _ => 6
  | .uuid _ => 7

/-- Bytes in lexicographic order. -/
def compareBytes : List UInt8 → List UInt8 → Ordering
  | [], [] => .eq
  | [], _ :: _ => .lt
  | _ :: _, [] => .gt
  | a :: as, b :: bs => (compare a.toNat b.toNat).then (compareBytes as bs)

/-- Keys are ordered by kind, then by content. -/
def compare : Key → Key → Ordering
  | .bool a, .bool b => Ord.compare a.toNat b.toNat
  | .int a, .int b => Ord.compare a.toInt b.toInt
  | .uint a, .uint b => Ord.compare a.toNat b.toNat
  | .float a, .float b => Ord.compare a.toNat b.toNat
  | .text a, .text b => Ord.compare a b
  | .bytes a, .bytes b => compareBytes a b
  | .time a, .time b => Ord.compare a b
  | .uuid a, .uuid b => Ord.compare a.bits.toNat b.bits.toNat
  | a, b => Ord.compare a.rank b.rank

/-- The keys in ascending order, each once. -/
def sorted (keys : List Key) : List Key :=
  (keys.mergeSort fun a b => (compare a b).isLE).eraseReps

end Key

end RecordGraph
