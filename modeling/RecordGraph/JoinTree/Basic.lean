import RecordGraph.JoinTree.Reads

/-!
# The joins of a query

A `JoinTree` has one `Element` for every path that a query reads. The elements are listed by their
paths in lexicographic order: a path comes before the paths that go on from it, so the list is a
pre-order of the tree, and an element's place in it is its number. Neither numbers nor labels
depend on the order in which the query mentions things.

* `JoinTree.compile`: the joins of a query.
* `JoinTree.outputs`: what the statement selects, in order.
* `JoinTree.elementFor`: where a node is found.
-/
namespace RecordGraph

/-- Which columns a compiled query emits. -/
inductive Projection where
  /-- What is selected, and the keys and versions that identify objects. -/
  | objects
  /-- Only what is selected. -/
  | selected
  deriving DecidableEq, Repr

/-- A column of an element. -/
structure ColumnOutput where
  column : Column
  /-- The name in the result. -/
  label : String
  /-- Asked for by the query. -/
  selected : Bool
  /-- Part of the result. -/
  emitted : Bool

/-- A calculation of an element. -/
structure CalculationOutput where
  name : String
  /-- The name in the result. -/
  label : String
  expression : Node

/-- A joined table. -/
structure Element where
  id : Nat
  path : Path
  relation : Relation
  table : Table
  parent : Option Nat
  children : List Nat
  /-- The name of the table in the statement. -/
  label : String
  columns : List ColumnOutput
  calculations : List CalculationOutput
  /-- Gives objects of the loaded graph. -/
  materialized : Bool

namespace Element

def emitted (e : Element) : List ColumnOutput := e.columns.filter (·.emitted)

/-- The key column, if it is part of the result. -/
def emittedKey? (e : Element) : Option ColumnOutput := e.emitted.find? (·.column.primaryKey)

/-- The name of the association table between the element and its parent. -/
def associationLabel (e : Element) : String := e.label ++ "_a"

end Element

/-- The joins of a query. -/
structure JoinTree where
  root : Element
  /-- The other elements, in pre-order. -/
  rest : List Element
  grouped : Bool

namespace Path

/-- Paths in lexicographic order. -/
def compare : Path → Path → Ordering
  | [], [] => .eq
  | [], _ :: _ => .lt
  | _ :: _, [] => .gt
  | a :: as, b :: bs => (a.compare b).then (compare as bs)

end Path

namespace Reads

/-- The joins in pre-order, the root first. -/
def order (r : Reads) : List Join :=
  r.root :: r.joins.mergeSort fun a b => (Path.compare a.path b.path).isLE

/-- The number of the join that a path leads to. -/
def idOf (r : Reads) (path : Path) : Nat := r.order.findIdx (·.path == path)

/-- The joins that start from a path. -/
def children (r : Reads) (path : Path) : List Nat :=
  (r.order.filter fun j => decide (1 < j.path.length) && j.path.dropLast == path).map
    fun j => r.idOf j.path

/-- Something at a path, or further on, is asked for. -/
def materialized (r : Reads) (path : Path) : Bool :=
  path == r.root.path
    || r.columns.any (fun c => c.selected && path.isPrefixOf c.path)
    || r.calculations.any (fun d => path.isPrefixOf d.path)

/-- Each column once, by its name, where it comes first. -/
def distinctColumns (columns : List Column) : List Column :=
  columns.foldl (fun done c => if done.any (·.name == c.name) then done else done ++ [c]) []

/-- The place of a column in its table; a column that the table lacks comes first. -/
def place (t : Table) (c : Column) : Nat := ((t.position? c.name).map (· + 1)).getD 0

/-- The columns read of a join, in the order of its table. -/
def columnsOf (r : Reads) (keys : Bool) (j : Join) : List Column :=
  let read := (r.columns.filter (·.path == j.path)).map (·.column)
  let identity := if keys then j.table.primaryKey :: j.table.lockColumn?.toList else []
  (distinctColumns (read ++ identity)).mergeSort fun a b => place j.table a ≤ place j.table b

def isSelected (r : Reads) (path : Path) (c : Column) : Bool :=
  r.columns.any fun d => d.selected && d.path == path && d.column.name == c.name

/-- The element of a join. `lead` comes before the labels; with `keys`, an element that gives
objects emits its key and version. -/
def element (r : Reads) (lead : String) (keys : Bool) (j : Join) : Element :=
  let id := r.idOf j.path
  let label := lead ++ "t" ++ toString id
  let materialized := r.materialized j.path
  { id, label, materialized
    path := j.path
    relation := j.relation
    table := j.table
    parent := if j.path.length ≤ 1 then none else some (r.idOf j.path.dropLast)
    children := r.children j.path
    columns := (r.columnsOf keys j).map fun c =>
      let selected := r.isSelected j.path c
      { column := c
        label := label ++ "__" ++ c.name
        selected
        emitted := selected || (keys && (c.primaryKey || c.isLock) && materialized) }
    calculations := (r.calculations.filter (·.path == j.path)).map fun d =>
      { name := d.name, label := label ++ "__calc_" ++ d.name, expression := d.expression } }

end Reads

/-- An entry of what a statement selects. -/
inductive Output where
  | column (element : Element) (column : ColumnOutput)
  | calculation (element : Element) (calculation : CalculationOutput)

/-- The name in the result. -/
def Output.label : Output → String
  | .column _ c => c.label
  | .calculation _ c => c.label

namespace JoinTree

/-- The joins of a query. Keys and versions identify objects only where every row is one object of
the root: not where rows are grouped, or made distinct by what they show. -/
def compile (projection : Projection) (lead : String) (q : Query) : Except Error JoinTree := do
  let r ← (Reads.ofQuery? q).mapError .invalidQuery
  let grouped := !q.groupBys.isEmpty
  let keys := projection == .objects && !grouped && !q.distinct
  .ok ⟨r.element lead keys r.root, r.order.tail.map (r.element lead keys), grouped⟩

/-- The elements in pre-order. -/
def elements (t : JoinTree) : List Element := t.root :: t.rest

/-- The element with a number. -/
def element? (t : JoinTree) (id : Nat) : Option Element := t.elements.find? (·.id == id)

/-- The element that a path leads to. -/
def find? (t : JoinTree) (path : Path) : Option Element := t.elements.find? (·.path == path)

/-- The element where a column, a calculation or a table-like node is found. -/
def elementFor (t : JoinTree) (n : Node) : Except Error Element :=
  match n.path?.bind t.find? with
  | some e => .ok e
  | none => .error (.invalidQuery (.notInQuery n.text))

/-- Some join may give many rows for one. -/
def fansOut (t : JoinTree) : Bool := t.elements.any (·.relation.isPlural)

/-- What the statement selects: the columns of every element, then every calculation. -/
def outputs (t : JoinTree) : List Output :=
  t.elements.flatMap (fun e => e.emitted.map (.column e))
    ++ t.elements.flatMap (fun e => e.calculations.map (.calculation e))

end JoinTree

end RecordGraph
