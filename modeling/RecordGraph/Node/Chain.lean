import RecordGraph.Node.Basic
import RecordGraph.Schema.Basic

/-!
# Chains over a schema

A `Chain` is a node whose names are checked against a schema as it grows: every step starts at a
table-like node, and names a column or relation of its table.

* `Schema.chain`: the chain of a table alone.
* `Chain.step`: one more link.
-/
namespace RecordGraph

/-- A node together with the schema that its names come from. -/
structure Chain where
  schema : Schema
  node : Node

/-- A link of a chain. -/
inductive Link where
  /-- A column, by name or identifier. -/
  | column (key : String)
  | reference (identifier : String)
  | reverse (identifier : String)
  | manyMany (identifier : String)
  /-- A calculation, declared or not. -/
  | calculated (name : String)

/-- The chain of a table alone. -/
def Schema.chain (s : Schema) (table : String) : Except Error Chain := do
  let t ← s.requireTable table
  .ok ⟨s, .table t⟩

namespace Chain

def fail (fault : QueryFault) : Except Error α := .error (.invalidQuery fault)

/-- The table whose rows the chain stands at. -/
def table (c : Chain) : Except Error Table :=
  match c.node.isTableLike, c.node.target? with
  | true, some t => .ok t
  | _, _ => fail (.cannotTraverse c.node.text)

def column (c : Chain) (key : String) : Except Error Chain := do
  let t ← c.table
  let column ← t.requireColumn key
  .ok { c with node := .column c.node column }

def reference (c : Chain) (identifier : String) : Except Error Chain := do
  let t ← c.table
  match t.reference? identifier with
  | some r => do
    let target ← c.schema.requireTable r.target
    .ok { c with node := .reference c.node r target }
  | none => fail (.unknownReference t.name identifier)

def reverse (c : Chain) (identifier : String) : Except Error Chain := do
  let t ← c.table
  match t.reverse? identifier with
  | some r => do
    let source ← c.schema.requireTable r.source
    .ok { c with node := .reverse c.node r source }
  | none => fail (.unknownReverse t.name identifier)

def manyMany (c : Chain) (identifier : String) : Except Error Chain := do
  let t ← c.table
  let m ← t.requireManyMany identifier
  let target ← c.schema.requireTable m.target
  .ok { c with node := .manyMany c.node m target }

def calculated (c : Chain) (name : String) : Except Error Chain := do
  let _ ← c.table
  .ok { c with node := .calculated c.node name }

/-- One more link. -/
def step (c : Chain) : Link → Except Error Chain
  | .column key => c.column key
  | .reference identifier => c.reference identifier
  | .reverse identifier => c.reverse identifier
  | .manyMany identifier => c.manyMany identifier
  | .calculated name => c.calculated name

/-- The chain of a table and links from it. -/
def follow (s : Schema) (table : String) (links : List Link) : Except Error Chain := do
  let c ← s.chain table
  links.foldlM step c

end Chain

end RecordGraph
