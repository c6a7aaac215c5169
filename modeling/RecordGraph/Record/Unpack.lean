import RecordGraph.Cursor
import RecordGraph.Record.Basic

/-!
# Objects from joined rows

The rows of a join repeat an object once for every combination of the rows below it. An `Unpacker`
folds the rows back: under one parent, rows with the same key are one object, and objects keep the
order in which they are first seen. A key that is null is a join that met nothing.

Where no keys are read, every row is an object of its own, unless all that it shows is null.

* `Unpacker.push`, `Unpacker.finish`.
-/
namespace RecordGraph

/-- An element with the elements below it. -/
inductive Branch where
  | node (element : Element) (children : List Branch)

namespace Branch

def element : Branch → Element
  | node e _ => e

def children : Branch → List Branch
  | node _ bs => bs

/-- The branch of an element, `n` elements deep at most. -/
def grow (elements : List Element) : Nat → Element → Branch
  | 0, e => node e []
  | n + 1, e => node e ((elements.filter (·.parent == some e.id)).map (grow elements n))

end Branch

/-- The elements as a tree. -/
def JoinTree.branch (t : JoinTree) : Branch := Branch.grow t.rest t.rest.length t.root

/-- An object whose rows are still coming in. -/
structure Pending where
  key : Option Key
  values : NameMap Value
  calculations : NameMap Value
  /-- The objects below it, for every child of its element. -/
  children : List (List Pending)

namespace Element

/-- The emitted columns of an element in a row. -/
def valuesIn (e : Element) (row : Row) : NameMap Value :=
  .ofList (e.emitted.filterMap fun c => (row.get? c.label).map (c.column.name, ·))

/-- The calculations of an element in a row. -/
def calculationsIn (e : Element) (row : Row) : NameMap Value :=
  .ofList (e.calculations.filterMap fun c => (row.get? c.label).map (c.name, ·))

/-- All that an element shows in a row is null. -/
def isEmptyIn (e : Element) (row : Row) : Bool :=
  (e.emitted.map (·.label) ++ e.calculations.map (·.label)).all fun label =>
    ((row.get? label).map Value.isNull).getD true

end Element

namespace Unpacker

/-- What identifies the object of an element in a row. -/
inductive Identity where
  /-- The row has no such object. -/
  | absent
  | key (k : Key)
  /-- An object that no other row belongs to. -/
  | anonymous

def identity (e : Element) (row : Row) : Identity :=
  match e.emittedKey? with
  | some c => match (row.get? c.label).bind Value.key? with
    | some k => .key k
    | none => .absent
  | none => if e.parent.isSome && e.isEmptyIn row then .absent else .anonymous

/-- The objects with the first of a key changed by `old`, or else `fresh` behind them. -/
def merge (key : Key) (old : Pending → Pending) (fresh : Pending) : List Pending → List Pending
  | [] => [fresh]
  | p :: rest => if p.key = some key then old p :: rest else p :: merge key old fresh rest

mutual

/-- The objects of a branch under one parent, with a row added. -/
def visit (row : Row) : Branch → List Pending → List Pending
  | .node e children, objects =>
    if !e.materialized then objects
    else
      let fresh (key : Option Key) : Pending :=
        ⟨key, e.valuesIn row, e.calculationsIn row,
          visitAll row children (children.map fun _ => [])⟩
      match identity e row with
      | .absent => objects
      | .anonymous => objects ++ [fresh none]
      | .key k => merge k (fun p => { p with children := visitAll row children p.children })
          (fresh (some k)) objects

/-- The objects of every branch, with a row added. -/
def visitAll (row : Row) : List Branch → List (List Pending) → List (List Pending)
  | b :: bs, objects :: rest => visit row b objects :: visitAll row bs rest
  | _, objects => objects

end

/-- The relations with that of an element added, if it gives objects. -/
def attach (slots : NameMap (Slot Record)) (e : Element) (records : List Record) :
    NameMap (Slot Record) :=
  match e.materialized, e.relation.identifier? with
  | true, some identifier =>
    let related : Related Record :=
      if e.relation.isPlural then .many records else .one records.head?
    slots.insert identifier ⟨related, false⟩
  | _, _ => slots

mutual

/-- The record of an object. -/
def build : Branch → Pending → Record
  | .node e children, p =>
    .loaded e.table p.values p.calculations (buildSlots children p.children .empty)

/-- The relations of an object; of two with one name, the later counts. -/
def buildSlots : List Branch → List (List Pending) → NameMap (Slot Record) → NameMap (Slot Record)
  | b :: bs, objects :: rest, slots =>
    buildSlots bs rest (attach slots b.element (objects.map (build b)))
  | _, _, slots => slots

end

end Unpacker

/-- The objects of the rows so far. -/
structure Unpacker where
  branch : Branch
  objects : List Pending

namespace Unpacker

def start (t : JoinTree) : Unpacker := ⟨t.branch, []⟩

/-- With a row added. -/
def push (u : Unpacker) (row : Row) : Unpacker :=
  { u with objects := visit row u.branch u.objects }

/-- The records of the root, in the order in which they were first seen. -/
def finish (u : Unpacker) : List Record := u.objects.map (build u.branch)

/-- The records of rows. -/
def records (t : JoinTree) (rows : List Row) : List Record := (rows.foldl push (start t)).finish

end Unpacker

end RecordGraph
