import RecordGraph.Error
import RecordGraph.Node.Basic

/-!
# What a query reads

`Reads.ofQuery?` walks the nodes of a query and notes the relations that have to be joined, the
columns that are read or selected, and the calculations that are declared and referred to. Two
nodes with the same path read the same join.

Expressions read the columns in them; a relation among the operands stands for its key. Queries
inside an expression read nothing of the query around them.
-/
namespace RecordGraph

/-- How the rows of a join hang on the rows they start from. -/
inductive Relation where
  | root
  | reference (r : Reference)
  | reverse (r : Reverse)
  | manyMany (m : ManyMany)
  deriving DecidableEq

namespace Relation

/-- The name of the relation on the table it starts from. -/
def identifier? : Relation → Option String
  | .root => none
  | .reference r => some r.identifier
  | .reverse r => some r.identifier
  | .manyMany m => some m.identifier

/-- The name of the kind of a relation. -/
def kind : Relation → String
  | .root => "root"
  | .reference _ => "reference"
  | .reverse _ => "reverse"
  | .manyMany _ => "many_many"

/-- One row may have many rows joined to it. -/
def isPlural : Relation → Bool
  | .root | .reference _ => false
  | .reverse r => !r.unique
  | .manyMany _ => true

end Relation

/-- A table that a query reads, by the path that leads to it. -/
structure Join where
  path : Path
  relation : Relation
  table : Table

/-- A column that a query reads, and whether it is asked for or only used. -/
structure ColumnRead where
  path : Path
  column : Column
  selected : Bool

/-- A calculation that a query declares on the rows of a path. -/
structure Declared where
  path : Path
  name : String
  expression : Node

/-- What is read so far, everything in the order of its first use. -/
structure Reads where
  root : Join
  /-- The joins beside the root. -/
  joins : List Join
  columns : List ColumnRead
  calculations : List Declared
  /-- The calculations that expressions refer to. -/
  calculated : List (Path × String)

namespace Reads

/-- Nothing but the root is read. -/
def start (path : Path) (table : Table) : Reads := ⟨⟨path, .root, table⟩, [], [], [], []⟩

/-- The join that a path leads to. -/
def join? (r : Reads) (path : Path) : Option Join := (r.root :: r.joins).find? (·.path == path)

/-- The join of a table-like node, after the joins that it starts from. -/
def ensure (r : Reads) (n : Node) : Except QueryFault Reads :=
  match n.path? with
  | none => .error (.notRelationship n.text)
  | some path =>
    if (r.join? path).isSome then .ok r
    else
      match n with
      | .table t => .error (.notRootedAt t.name r.root.table.name)
      | .reference parent relation target => do
        let r ← r.ensure parent
        .ok { r with joins := r.joins ++ [⟨path, .reference relation, target⟩] }
      | .reverse parent relation target => do
        let r ← r.ensure parent
        .ok { r with joins := r.joins ++ [⟨path, .reverse relation, target⟩] }
      | .manyMany parent relation target => do
        let r ← r.ensure parent
        .ok { r with joins := r.joins ++ [⟨path, .manyMany relation, target⟩] }
      | n => .error (.notRelationship n.text)

/-- Columns of the join that a node leads to; `columns` picks them from the join's table. -/
def read (r : Reads) (n : Node) (selected : Bool) (columns : Table → List Column) :
    Except QueryFault Reads := do
  let r ← r.ensure n
  match n.path?.bind r.join? with
  | some join =>
    let reads := (columns join.table).map fun c => ⟨join.path, c, selected⟩
    .ok { r with columns := r.columns ++ reads }
  | none => .ok r

/-- All columns of the join that a node leads to. -/
def selectAll (r : Reads) (n : Node) : Except QueryFault Reads := r.read n true (·.columns)

mutual

/-- The columns and calculations that an expression reads. -/
def expression (r : Reads) : Node → Except QueryFault Reads
  | .column parent c => r.read parent false fun _ => [c]
  | .calculated parent name => do
    let r ← r.ensure parent
    .ok { r with calculated := r.calculated ++ (parent.path?.map fun p => (p, name)).toList }
  | .operation _ operands => r.expressions operands
  | .value _ | .subquery _ => .ok r
  | n => r.read n false fun t => [t.primaryKey]

def expressions (r : Reads) : List Node → Except QueryFault Reads
  | [] => .ok r
  | n :: rest => do
    let r ← r.expression n
    r.expressions rest

end

/-- A column to group by. -/
def groupBy (r : Reads) : Node → Except QueryFault Reads
  | .column parent c => r.read parent true fun _ => [c]
  | n => .error (.groupedExpression n.text)

/-- A column, or all columns of a relation. -/
def select (r : Reads) (n : Node) : Except QueryFault Reads :=
  match n with
  | .column parent c => r.read parent true fun _ => [c]
  | n => if n.isTableLike then r.selectAll n else .error (.cannotSelect n.text)

/-- In a grouped query only what it groups by can be selected, and is anyway. -/
def selectGrouped (groupBys : List Node) (r : Reads) (n : Node) : Except QueryFault Reads :=
  if groupBys.any (·.alike n) then .ok r else .error (.selectNotGrouped n.text)

/-- A declared calculation; no name comes twice at one place. -/
def declare (r : Reads) (c : Calculation Node) : Except QueryFault Reads := do
  if !c.target.isTableLike then .error (.calculationTarget c.name c.target.text)
  else
    let r ← r.ensure c.target
    let r ← r.expression c.expression
    match c.target.path? with
    | none => .ok r
    | some path =>
      if r.calculations.any (fun d => d.path == path && d.name == c.name) then
        .error (.duplicateCalculation c.name)
      else .ok { r with calculations := r.calculations ++ [⟨path, c.name, c.expression⟩] }

/-- Every calculation that is referred to is declared where it is looked for. -/
def checkCalculated (r : Reads) : List (Path × String) → Except QueryFault Unit
  | [] => .ok ()
  | (path, name) :: rest =>
    if r.calculations.any (fun d => d.path == path && d.name == name) then r.checkCalculated rest
    else .error (.unknownCalculation name)

/-- What a query reads. -/
def ofQuery? (q : Query) : Except QueryFault Reads := do
  match q.root with
  | .table t =>
    let grouped := !q.groupBys.isEmpty
    let r := start [.table t.database t.name] t
    let r ← q.groupBys.foldlM groupBy r
    let r ← q.selects.foldlM (if grouped then selectGrouped q.groupBys else select) r
    let r ← if q.selects.isEmpty && !grouped then r.selectAll q.root else .ok r
    let r ← r.expressions q.conditions
    let r ← r.expressions (q.orderBys.map (·.node))
    let r ← r.expressions q.having
    let r ← q.calculations.foldlM declare r
    r.checkCalculated r.calculated
    .ok r
  | n => .error (.rootNotTable n.text)

end Reads

end RecordGraph
