/-!
# What a column holds

A `Receiver` is the type that a raw database value is decoded into; a `Role` is what the column
means to its table.
-/
namespace RecordGraph

/-- The type a column's raw values are decoded into. -/
inductive Receiver where
  | string
  | int8
  | int16
  | int32
  | int64
  | uint8
  | uint16
  | uint32
  | uint64
  | time
  | float32
  | float64
  | bool
  | uuid
  | ulid
  | bytes
  /-- An integer key that the database assigns. -/
  | autoPrimaryKey
  deriving DecidableEq, Repr, Inhabited

namespace Receiver

/-- Every receiver, in the order of their binary codes. -/
def all : List Receiver :=
  [.string, .int8, .int16, .int32, .int64, .uint8, .uint16, .uint32, .uint64, .time, .float32,
    .float64, .bool, .uuid, .ulid, .bytes, .autoPrimaryKey]

def name : Receiver → String
  | .string => "string"
  | .int8 => "int8"
  | .int16 => "int16"
  | .int32 => "int32"
  | .int64 => "int64"
  | .uint8 => "uint8"
  | .uint16 => "uint16"
  | .uint32 => "uint32"
  | .uint64 => "uint64"
  | .time => "time"
  | .float32 => "float32"
  | .float64 => "float64"
  | .bool => "bool"
  | .uuid => "uuid"
  | .ulid => "ulid"
  | .bytes => "bytes"
  | .autoPrimaryKey => "auto_primary_key"

/-- The width of an integer receiver. -/
def intBits? : Receiver → Option Nat
  | .int8 | .uint8 => some 8
  | .int16 | .uint16 => some 16
  | .int32 | .uint32 => some 32
  | .int64 | .uint64 | .autoPrimaryKey => some 64
  | _ => none

def ofName? (s : String) : Option Receiver := all.find? (·.name == s)

end Receiver

/-- What a column means, apart from how it is decoded. -/
inductive Role where
  | column
  /-- A key into a table of named values. -/
  | enumeration
  /-- The version that guards writes. -/
  | lock
  /-- A number of any precision, as text. -/
  | numericString
  /-- A JSON document, as text. -/
  | json
  deriving DecidableEq, Repr, Inhabited

namespace Role

/-- Every role, in the order of their binary codes. -/
def all : List Role := [.column, .enumeration, .lock, .numericString, .json]

def name : Role → String
  | .column => "column"
  | .enumeration => "enum"
  | .lock => "lock"
  | .numericString => "numeric_string"
  | .json => "json"

def isLock (r : Role) : Bool := r == .lock

def ofName? (s : String) : Option Role := all.find? (·.name == s)

end Role

end RecordGraph
