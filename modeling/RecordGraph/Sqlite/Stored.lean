import RecordGraph.Value.Basic

/-!
# Stored values

What SQLite keeps in a cell, in one of its five storage classes. Values of other kinds are kept as
an integer or as a text: truth values as 1 and 0, unsigned numbers beyond the signed range, times
and UUIDs as texts.

* `Stored.ofValue`, `Stored.value`: values into cells and back.
* `Stored.compare`: the order of cells, by storage class, then by content.
-/
namespace RecordGraph.Sqlite

/-- The content of a cell. A real number is never NaN. -/
inductive Stored where
  | null
  | integer (i : Int64)
  | real (x : Binary64)
  | text (s : String)
  | blob (b : List UInt8)
  deriving DecidableEq, Inhabited

namespace Stored

/-- The form in which a value is handed over. There is no NaN in a cell. -/
def ofValue : Value → Stored
  | .null => .null
  | .bool b => .integer (if b then 1 else 0)
  | .int i => .integer i
  | .uint u => match Value.ofUnsigned? u with
    | some i => .integer i
    | none => .text (toString u.toNat)
  | .float x => if x.isNaN then .null else .real x
  | .text s => .text s
  | .bytes b => .blob b
  | .time t => .text t.stored
  | .uuid u => .text u.text

/-- The raw value that is read from a cell. -/
def value : Stored → Value
  | .null => .null
  | .integer i => .int i
  | .real x => .float x
  | .text s => .text s
  | .blob b => .bytes b

def isNull : Stored → Bool
  | .null => true
  | _ => false

/-- The place of a storage class in the order; numbers of both kinds share one. -/
def rank : Stored → Nat
  | .null => 0
  | .integer _ | .real _ => 1
  | .text _ => 2
  | .blob _ => 3

/-- The number in a cell as a fraction. -/
def number? : Stored → Option (Int × Nat)
  | .integer i => some (i.toInt, 1)
  | .real x => some x.signedRatio
  | _ => none

/-- Nulls come first, then numbers, texts by their characters, and blobs by their bytes. -/
def compare (a b : Stored) : Ordering :=
  match a.number?, b.number? with
  | some (n, d), some (m, e) => Ord.compare (n * e) (m * d)
  | _, _ => match a, b with
    | .text s, .text t => Ord.compare s t
    | .blob s, .blob t => Key.compareBytes s t
    | a, b => Ord.compare a.rank b.rank

/-- Two cells are equal to a comparison, which nulls never are. -/
def matching (a b : Stored) : Bool := !a.isNull && a.compare b == .eq

end Stored

end RecordGraph.Sqlite
