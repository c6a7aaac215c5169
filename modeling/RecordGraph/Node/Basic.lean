import RecordGraph.Node.Op
import RecordGraph.Schema.Table
import RecordGraph.Value.Basic

/-!
# Nodes and queries

A `Node` describes a table, a column, a relation or an expression. Relations and columns link to
the node they start from, so a node of theirs is a chain that ends at a table. A `Query` is lists of
nodes; a node may in turn hold a query.

* `Node.path?`: the relations from the root table to a node.
* `Node.alike`: two nodes that mean the same.
* `Node.text`: a node in messages.
-/
namespace RecordGraph

/-- A node to sort by. -/
structure SortTerm (ν : Type) where
  node : ν
  descending : Bool

/-- An expression computed for every object of a target, under a name. -/
structure Calculation (ν : Type) where
  target : ν
  name : String
  expression : ν

/-- What a query asks for, over nodes of type `ν`. -/
structure QueryOf (ν : Type) where
  root : ν
  selects : List ν
  conditions : List ν
  orderBys : List (SortTerm ν)
  groupBys : List ν
  calculations : List (Calculation ν)
  having : List ν
  limit : Option UInt64
  offset : Option UInt64
  distinct : Bool
  forUpdate : Bool

/-- All objects of a root. -/
def QueryOf.all (root : ν) : QueryOf ν :=
  ⟨root, [], [], [], [], [], [], none, none, false, false⟩

/-- A table, a column, a relation or an expression. -/
inductive Node where
  | table (table : Table)
  | column (parent : Node) (column : Column)
  | reference (parent : Node) (reference : Reference) (target : Table)
  | reverse (parent : Node) (reverse : Reverse) (target : Table)
  | manyMany (parent : Node) (relation : ManyMany) (target : Table)
  /-- A calculation declared on `parent`. -/
  | calculated (parent : Node) (name : String)
  | operation (op : Op) (operands : List Node)
  | value (v : Value)
  | subquery (query : QueryOf Node)

/-- What a query asks for. -/
abbrev Query := QueryOf Node

/-- The kind of a node. -/
inductive NodeKind where
  | table
  | column
  | reference
  | reverse
  | manyMany
  | calculated
  | operation
  | value
  | subquery
  deriving DecidableEq, Repr

def NodeKind.name : NodeKind → String
  | .table => "Table"
  | .column => "Column"
  | .reference => "Reference"
  | .reverse => "ReverseReference"
  | .manyMany => "ManyMany"
  | .calculated => "Alias"
  | .operation => "Operation"
  | .value => "Value"
  | .subquery => "Subquery"

/-- One step of a path. -/
inductive Hop where
  /-- The root table. -/
  | table (database table : String)
  | reference (identifier : String)
  | reverse (identifier : String)
  | manyMany (identifier : String)
  deriving DecidableEq, Repr

/-- The steps from a root table. -/
abbrev Path := List Hop

namespace Hop

/-- The rank of a hop's kind. -/
def rank : Hop → Nat
  | .table _ _ => 0
  | .reference _ => 1
  | .reverse _ => 2
  | .manyMany _ => 3

/-- Hops are ordered by kind, then by name. -/
def compare : Hop → Hop → Ordering
  | .table d t, .table d' t' => (Ord.compare d d').then (Ord.compare t t')
  | .reference a, .reference b => Ord.compare a b
  | .reverse a, .reverse b => Ord.compare a b
  | .manyMany a, .manyMany b => Ord.compare a b
  | a, b => Ord.compare a.rank b.rank

end Hop

namespace Node

def kind : Node → NodeKind
  | .table .. => .table
  | .column .. => .column
  | .reference .. => .reference
  | .reverse .. => .reverse
  | .manyMany .. => .manyMany
  | .calculated .. => .calculated
  | .operation .. => .operation
  | .value .. => .value
  | .subquery .. => .subquery

/-- The node that a column or relation starts from. -/
def parent? : Node → Option Node
  | .column p _ | .reference p _ _ | .reverse p _ _ | .manyMany p _ _ | .calculated p _ => some p
  | _ => none

/-- Nodes that name rows: tables and relations. -/
def isTableLike : Node → Bool
  | .table _ | .reference .. | .reverse .. | .manyMany .. => true
  | _ => false

/-- The table that a table-like node's rows come from. -/
def target? : Node → Option Table
  | .table t | .reference _ _ t | .reverse _ _ t | .manyMany _ _ t => some t
  | _ => none

/-- The table that a node resolves against. -/
def table? : Node → Option Table
  | .column p _ | .calculated p _ => p.table?
  | n => n.target?

def tableName? (n : Node) : Option String := n.table?.map (·.name)

def database? (n : Node) : Option String := n.table?.map (·.database)

def column? : Node → Option Column
  | .column _ c => some c
  | _ => none

/-- The table node at the end of a chain. -/
def root? : Node → Option Node
  | .table t => some (.table t)
  | .column p _ | .reference p _ _ | .reverse p _ _ | .manyMany p _ _ | .calculated p _ => p.root?
  | _ => none

/-- The relations from the root to a table-like node; a column or calculation is where its parent
is. Expressions have no place. -/
def path? : Node → Option Path
  | .table t => some [.table t.database t.name]
  | .column p _ | .calculated p _ => p.path?
  | .reference p r _ => p.path?.map (· ++ [.reference r.identifier])
  | .reverse p r _ => p.path?.map (· ++ [.reverse r.identifier])
  | .manyMany p m _ => p.path?.map (· ++ [.manyMany m.identifier])
  | .operation .. | .value .. | .subquery .. => none

/-- Texts with a comma and a blank between them. -/
def commaSeparated : List String → String
  | [] => ""
  | [s] => s
  | s :: rest => s ++ ", " ++ commaSeparated rest

mutual

/-- A node in messages. -/
def text : Node → String
  | .table t => t.name
  | .column p c => text p ++ "." ++ c.name
  | .reference p r _ => text p ++ "." ++ r.identifier
  | .reverse p r _ => text p ++ "." ++ r.identifier
  | .manyMany p m _ => text p ++ "." ++ m.identifier
  | .calculated p name => text p ++ ".@" ++ name
  | .operation op operands => op.name ++ "(" ++ commaSeparated (texts operands) ++ ")"
  | .value v => v.shown
  | .subquery q => "(" ++ rootText q ++ ")"

/-- The root of a query in messages. -/
def rootText : QueryOf Node → String
  | ⟨root, _, _, _, _, _, _, _, _, _, _⟩ => text root

def texts : List Node → List String
  | [] => []
  | n :: rest => text n :: texts rest

end

/-- The node within a frame, as a tool that inspects values shows it. -/
def framed (n : Node) : String := "Node(" ++ n.text ++ ")"

/-- Same kind, table and database. -/
def samePlace (a b : Node) : Bool :=
  a.kind == b.kind && a.tableName? == b.tableName? && a.database? == b.database?

mutual

/-- Two nodes that mean the same: same kind, table and database, same names, and parents that are
alike in turn. Queries never are. -/
def alike : Node → Node → Bool
  | .table t, .table u => t.name == u.name && t.database == u.database
  | .column p c, .column q d =>
    samePlace (.column p c) (.column q d) && c.identifier == d.identifier && p.alike q
  | .reference p r t, .reference q s u =>
    samePlace (.reference p r t) (.reference q s u) && r.identifier == s.identifier && p.alike q
  | .reverse p r t, .reverse q s u =>
    samePlace (.reverse p r t) (.reverse q s u) && r.identifier == s.identifier && p.alike q
  | .manyMany p r t, .manyMany q s u =>
    samePlace (.manyMany p r t) (.manyMany q s u) && r.identifier == s.identifier && p.alike q
  | .calculated p a, .calculated q b =>
    samePlace (.calculated p a) (.calculated q b) && a == b && p.alike q
  | .operation f xs, .operation g ys => f == g && allAlike xs ys
  | .value v, .value w => v.same w
  | _, _ => false

/-- Lists of equal length whose nodes are alike one by one. -/
def allAlike : List Node → List Node → Bool
  | [], [] => true
  | a :: as, b :: bs => a.alike b && allAlike as bs
  | _, _ => false

end

/-- Which nodes are alike; every node is alike to itself, whatever it holds. -/
def alikeTable (nodes : List Node) : List (List Bool) :=
  let indexed := nodes.zipIdx
  indexed.map fun (a, i) => indexed.map fun (b, j) => i == j || a.alike b

/-- Sort by a node, smallest first. -/
def ascending (n : Node) : SortTerm Node := ⟨n, false⟩

/-- Sort by a node, greatest first. -/
def descending (n : Node) : SortTerm Node := ⟨n, true⟩

/-- Constant null. -/
def isNullValue : Node → Bool
  | .value .null => true
  | _ => false

end Node

end RecordGraph
