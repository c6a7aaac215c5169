import RecordGraph.Codec.SchemaText
import RecordGraph.Json.Read
import RecordGraph.Node.Basic
import RecordGraph.Time.Read

/-!
# Nodes and queries as documents

The JSON forms of values, nodes and queries, which carry everything a query needs to be compiled
elsewhere.

* `Node.toText`, `Node.ofText?`, `Query.toText`, `Query.ofText?`: to text and back.

Numbers that are not finite have no form in JSON and are written as null, which is not read back.
-/
namespace RecordGraph

open Json

/-! ## Values -/

def Value.toStored : Value → Json
  | .null => ofText "Null"
  | .bool b => ofEntries [("Bool", .bool b)]
  | .int i => ofEntries [("Int", ofInt i.toInt)]
  | .uint u => ofEntries [("Uint", ofNat u.toNat)]
  | .float x => ofEntries [("Float", ofFloat x)]
  | .text s => ofEntries [("Text", ofText s)]
  | .bytes b => ofEntries [("Bytes", .array (b.map fun x => ofNat x.toNat))]
  | .time t => ofEntries [("Time", ofText t.exact)]
  | .uuid u => ofEntries [("Uuid", ofText u.text)]

/-- A byte, as a number. -/
def readByte : Reader UInt8 := fun _ j => do
  let n ← j.uint64?
  if n.toNat < 256 then some (UInt8.ofNat n.toNat) else none

def Value.readContent (name : String) : Reader Value := fun depth j =>
  match name with
  | "Null" => match j with
    | .null => some .null
    | _ => none
  | "Bool" => j.bool?.map .bool
  | "Int" => j.int64?.map .int
  | "Uint" => j.uint64?.map .uint
  | "Float" => j.float?.map .float
  | "Text" => j.text?.map .text
  | "Bytes" => (readList readByte depth j).map .bytes
  | "Time" => (j.text?.bind Time.parseExact?).map .time
  | "Uuid" => (j.text?.bind Uuid.parse?).map .uuid
  | _ => none

def Value.read : Reader Value := fun depth j => do
  let (name, content, depth) ← variant? depth j
  match content with
  | none => if name = "Null" then some .null else none
  | some j => Value.readContent name depth j

/-! ## Nodes -/

mutual

def Node.toJson : Node → Json
  | .table t => ofEntries [("Table", ofEntries [("table", t.toJson)])]
  | .column p c =>
    ofEntries [("Column", ofEntries [("parent", p.toJson), ("column", c.toJson)])]
  | .reference p r t =>
    ofEntries [("Reference",
      ofEntries [("parent", p.toJson), ("reference", r.toJson), ("target", t.toJson)])]
  | .reverse p r t =>
    ofEntries [("ReverseReference",
      ofEntries [("parent", p.toJson), ("reverse", r.toJson), ("target", t.toJson)])]
  | .manyMany p m t =>
    ofEntries [("ManyMany",
      ofEntries [("parent", p.toJson), ("relation", m.toJson), ("target", t.toJson)])]
  | .calculated p name =>
    ofEntries [("Alias", ofEntries [("parent", p.toJson), ("name", ofText name)])]
  | .operation op operands =>
    ofEntries [("Operation",
      ofEntries [("op", ofText op.name), ("operands", .array (Node.listToJson operands))])]
  | .value v => ofEntries [("Value", v.toStored)]
  | .subquery q => ofEntries [("Subquery", Node.queryToJson q)]

def Node.listToJson : List Node → List Json
  | [] => []
  | n :: rest => n.toJson :: Node.listToJson rest

def Node.sortsToJson : List (SortTerm Node) → List Json
  | [] => []
  | s :: rest => Node.sortToJson s :: Node.sortsToJson rest

def Node.sortToJson : SortTerm Node → Json
  | ⟨node, descending⟩ => ofEntries [("node", node.toJson), ("descending", .bool descending)]

def Node.calculationsToJson : List (Calculation Node) → List Json
  | [] => []
  | c :: rest => Node.calculationToJson c :: Node.calculationsToJson rest

def Node.calculationToJson : Calculation Node → Json
  | ⟨target, name, expression⟩ =>
    ofEntries [("target", target.toJson), ("alias", ofText name), ("expr", expression.toJson)]

def Node.queryToJson : QueryOf Node → Json
  | ⟨root, selects, conditions, orderBys, groupBys, calculations, having, limit, offset, distinct,
      forUpdate⟩ =>
    ofEntries [
      ("root", root.toJson),
      ("selects", .array (Node.listToJson selects)),
      ("conditions", .array (Node.listToJson conditions)),
      ("order_bys", .array (Node.sortsToJson orderBys)),
      ("group_bys", .array (Node.listToJson groupBys)),
      ("calculations", .array (Node.calculationsToJson calculations)),
      ("having", .array (Node.listToJson having)),
      ("limit", ofOption (fun n => ofNat n.toNat) limit),
      ("offset", ofOption (fun n => ofNat n.toNat) offset),
      ("distinct", .bool distinct),
      ("for_update", .bool forUpdate)]

end

def readSort (readNode : Reader Node) : Reader (SortTerm Node) := fun depth j => do
  let f ← fields? ["node", "descending"] depth j
  some { node := ← f.required "node" readNode, descending := ← f.required "descending" readBool }

def readCalculation (readNode : Reader Node) : Reader (Calculation Node) := fun depth j => do
  let f ← fields? ["target", "alias", "expr"] depth j
  some {
    target := ← f.required "target" readNode
    name := ← f.required "alias" readText
    expression := ← f.required "expr" readNode }

def readQuery (readNode : Reader Node) : Reader Query := fun depth j => do
  let f ← fields? ["root", "selects", "conditions", "order_bys", "group_bys", "calculations",
    "having", "limit", "offset", "distinct", "for_update"] depth j
  some {
    root := ← f.required "root" readNode
    selects := ← f.required "selects" (readList readNode)
    conditions := ← f.required "conditions" (readList readNode)
    orderBys := ← f.required "order_bys" (readList (readSort readNode))
    groupBys := ← f.required "group_bys" (readList readNode)
    calculations := ← f.required "calculations" (readList (readCalculation readNode))
    having := ← f.required "having" (readList readNode)
    limit := ← f.nullable "limit" readUInt64
    offset := ← f.nullable "offset" readUInt64
    distinct := ← f.required "distinct" readBool
    forUpdate := ← f.required "for_update" readBool }

/-- The content of a node of the named kind; `readNode` reads the nodes within. -/
def readNodeContent (readNode : Reader Node) (kind : String) : Reader Node := fun depth j =>
  match kind with
  | "Table" => do
    let f ← fields? ["table"] depth j
    some (.table (← f.required "table" Table.read))
  | "Column" => do
    let f ← fields? ["parent", "column"] depth j
    some (.column (← f.required "parent" readNode) (← f.required "column" Column.read))
  | "Reference" => do
    let f ← fields? ["parent", "reference", "target"] depth j
    some (.reference (← f.required "parent" readNode) (← f.required "reference" Reference.read)
      (← f.required "target" Table.read))
  | "ReverseReference" => do
    let f ← fields? ["parent", "reverse", "target"] depth j
    some (.reverse (← f.required "parent" readNode) (← f.required "reverse" Reverse.read)
      (← f.required "target" Table.read))
  | "ManyMany" => do
    let f ← fields? ["parent", "relation", "target"] depth j
    some (.manyMany (← f.required "parent" readNode) (← f.required "relation" ManyMany.read)
      (← f.required "target" Table.read))
  | "Alias" => do
    let f ← fields? ["parent", "name"] depth j
    some (.calculated (← f.required "parent" readNode) (← f.required "name" readText))
  | "Operation" => do
    let f ← fields? ["op", "operands"] depth j
    some (.operation (← f.required "op" (readName Op.ofName?))
      (← f.required "operands" (readList readNode)))
  | "Value" => (Value.read depth j).map .value
  | "Subquery" => (readQuery readNode depth j).map .subquery
  | _ => none

/-- A node with at most `levels` nodes around each other. Every node opens a level of nesting, so
the levels of the document bound them. -/
def readNodeWithin : Nat → Reader Node
  | 0 => fun _ _ => none
  | levels + 1 => fun depth j => do
    let (kind, content, depth) ← variant? depth j
    readNodeContent (readNodeWithin levels) kind depth (← content)

def Node.read : Reader Node := fun depth j => readNodeWithin depth depth j

def Query.read : Reader Query := fun depth j => readQuery Node.read depth j

/-- The text form of a node. -/
def Node.toText (n : Node) : String := n.toJson.render

/-- The node that a text describes. -/
def Node.ofText? (s : String) : Option Node := (Json.parse? s).bind (Node.read depthLimit)

/-- The text form of a query. -/
def Query.toText (q : Query) : String := (Node.queryToJson q).render

/-- The query that a text describes. -/
def Query.ofText? (s : String) : Option Query := (Json.parse? s).bind (Query.read depthLimit)

end RecordGraph
