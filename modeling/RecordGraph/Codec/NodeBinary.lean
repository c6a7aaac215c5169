import RecordGraph.Codec.Binary
import RecordGraph.Codec.SchemaText
import RecordGraph.Node.Basic
import RecordGraph.Time.Read

/-!
# Nodes and queries in binary

The binary forms of values, nodes and queries: the fields of each in their order, and the number of
each alternative.

* `Node.toBytes`, `Node.ofBytes?`, `Query.toBytes`, `Query.ofBytes?`: to bytes and back. Bytes
  after the content are ignored.
-/
namespace RecordGraph

open Binary

/-! ## Tables -/

def Column.encode (c : Column) : List UInt8 :=
  Binary.text c.name ++ Binary.text c.identifier ++ choice Receiver.all c.receiver
    ++ choice Role.all c.role ++ flag c.nullable ++ flag c.primaryKey ++ flag c.unique
    ++ optional Binary.text c.enumTable

def Column.take : Decoder Column := do
  let name ← takeText
  let identifier ← takeText
  let receiver ← takeChoice Receiver.all
  let role ← takeChoice Role.all
  let nullable ← takeFlag
  let primaryKey ← takeFlag
  let unique ← takeFlag
  let enumTable ← takeOptional takeText
  return { name, identifier, receiver, role, nullable, primaryKey, unique, enumTable }

def Reference.encode (r : Reference) : List UInt8 :=
  Binary.text r.identifier ++ Binary.text r.column ++ Binary.text r.target
    ++ Binary.text r.targetColumn

def Reference.take : Decoder Reference := do
  let identifier ← takeText
  let column ← takeText
  let target ← takeText
  let targetColumn ← takeText
  return { identifier, column, target, targetColumn }

def Reverse.encode (r : Reverse) : List UInt8 :=
  Binary.text r.identifier ++ Binary.text r.source ++ Binary.text r.column ++ flag r.unique

def Reverse.take : Decoder Reverse := do
  let identifier ← takeText
  let source ← takeText
  let column ← takeText
  let unique ← takeFlag
  return { identifier, source, column, unique }

def ManyMany.encode (m : ManyMany) : List UInt8 :=
  Binary.text m.identifier ++ Binary.text m.association ++ Binary.text m.ownColumn
    ++ Binary.text m.targetColumn ++ Binary.text m.target

def ManyMany.take : Decoder ManyMany := do
  let identifier ← takeText
  let association ← takeText
  let ownColumn ← takeText
  let targetColumn ← takeText
  let target ← takeText
  return { identifier, association, ownColumn, targetColumn, target }

def Table.encode (t : Table) : List UInt8 :=
  Binary.text t.database ++ Binary.text t.name ++ list Column.encode t.columns
    ++ natural t.keyIndex ++ list Reference.encode t.references ++ list Reverse.encode t.reverses
    ++ list ManyMany.encode t.manyManys

def Table.take : Decoder Table := do
  let database ← takeText
  let name ← takeText
  let columns ← takeList Column.take
  let keyIndex ← takeNatural
  let references ← takeList Reference.take
  let reverses ← takeList Reverse.take
  let manyManys ← takeList ManyMany.take
  match Table.ofParts? database name columns keyIndex references reverses manyManys with
  | some t => return t
  | none => failure

/-! ## Values -/

def Value.encode : Value → List UInt8
  | .null => natural 0
  | .bool b => natural 1 ++ flag b
  | .int i => natural 2 ++ integer i
  | .uint u => natural 3 ++ word u
  | .float x => natural 4 ++ littleEndian 8 x.bits.toNat
  | .text s => natural 5 ++ Binary.text s
  | .bytes b => natural 6 ++ block b
  | .time t => natural 7 ++ Binary.text t.exact
  | .uuid u => natural 8 ++ block u.bytes

/-- Content that a reader of it refuses is no content. -/
def ofOption? : Option α → Decoder α
  | some a => return a
  | none => failure

def Value.takeContent : Nat → Decoder Value
  | 0 => return .null
  | 1 => return .bool (← takeFlag)
  | 2 => return .int (← takeInteger)
  | 3 => return .uint (← takeWord)
  | 4 => return .float ⟨UInt64.ofNat (← takeFixed 8)⟩
  | 5 => return .text (← takeText)
  | 6 => return .bytes (← takeBlock)
  | 7 => do ofOption? ((Time.parseExact? (← takeText)).map .time)
  | 8 => do ofOption? ((Uuid.ofBytes? (← takeBlock)).map .uuid)
  | _ => failure

def Value.take : Decoder Value := do
  Value.takeContent (← takeShort)

/-! ## Nodes -/

mutual

def Node.encode : Node → List UInt8
  | .table t => natural 0 ++ t.encode
  | .column p c => natural 1 ++ p.encode ++ c.encode
  | .reference p r t => natural 2 ++ p.encode ++ r.encode ++ t.encode
  | .reverse p r t => natural 3 ++ p.encode ++ r.encode ++ t.encode
  | .manyMany p m t => natural 4 ++ p.encode ++ m.encode ++ t.encode
  | .calculated p name => natural 5 ++ p.encode ++ Binary.text name
  | .operation op operands =>
    natural 6 ++ choice Op.all op ++ natural operands.length ++ Node.encodeAll operands
  | .value v => natural 7 ++ v.encode
  | .subquery q => natural 8 ++ Node.encodeQuery q

def Node.encodeAll : List Node → List UInt8
  | [] => []
  | n :: rest => n.encode ++ Node.encodeAll rest

def Node.encodeSorts : List (SortTerm Node) → List UInt8
  | [] => []
  | s :: rest => Node.encodeSort s ++ Node.encodeSorts rest

def Node.encodeSort : SortTerm Node → List UInt8
  | ⟨node, descending⟩ => node.encode ++ flag descending

def Node.encodeCalculations : List (Calculation Node) → List UInt8
  | [] => []
  | c :: rest => Node.encodeCalculation c ++ Node.encodeCalculations rest

def Node.encodeCalculation : Calculation Node → List UInt8
  | ⟨target, name, expression⟩ => target.encode ++ Binary.text name ++ expression.encode

def Node.encodeQuery : QueryOf Node → List UInt8
  | ⟨root, selects, conditions, orderBys, groupBys, calculations, having, limit, offset, distinct,
      forUpdate⟩ =>
    root.encode
      ++ natural selects.length ++ Node.encodeAll selects
      ++ natural conditions.length ++ Node.encodeAll conditions
      ++ natural orderBys.length ++ Node.encodeSorts orderBys
      ++ natural groupBys.length ++ Node.encodeAll groupBys
      ++ natural calculations.length ++ Node.encodeCalculations calculations
      ++ natural having.length ++ Node.encodeAll having
      ++ optional word limit ++ optional word offset ++ flag distinct ++ flag forUpdate

end

def takeSort (takeNode : Decoder Node) : Decoder (SortTerm Node) := do
  let node ← takeNode
  let descending ← takeFlag
  return ⟨node, descending⟩

def takeCalculation (takeNode : Decoder Node) : Decoder (Calculation Node) := do
  let target ← takeNode
  let name ← takeText
  let expression ← takeNode
  return ⟨target, name, expression⟩

def takeQuery (takeNode : Decoder Node) : Decoder Query := do
  let root ← takeNode
  let selects ← takeList takeNode
  let conditions ← takeList takeNode
  let orderBys ← takeList (takeSort takeNode)
  let groupBys ← takeList takeNode
  let calculations ← takeList (takeCalculation takeNode)
  let having ← takeList takeNode
  let limit ← takeOptional takeWord
  let offset ← takeOptional takeWord
  let distinct ← takeFlag
  let forUpdate ← takeFlag
  return ⟨root, selects, conditions, orderBys, groupBys, calculations, having, limit, offset,
    distinct, forUpdate⟩

/-- The content of the node kind with the given number; `takeNode` reads the nodes within. -/
def takeNodeContent (takeNode : Decoder Node) : Nat → Decoder Node
  | 0 => return .table (← Table.take)
  | 1 => return .column (← takeNode) (← Column.take)
  | 2 => return .reference (← takeNode) (← Reference.take) (← Table.take)
  | 3 => return .reverse (← takeNode) (← Reverse.take) (← Table.take)
  | 4 => return .manyMany (← takeNode) (← ManyMany.take) (← Table.take)
  | 5 => return .calculated (← takeNode) (← takeText)
  | 6 => return .operation (← takeChoice Op.all) (← takeList takeNode)
  | 7 => return .value (← Value.take)
  | 8 => return .subquery (← takeQuery takeNode)
  | _ => failure

/-- A node with at most `levels` nodes around each other. Every node takes a byte of its own, so
the length of the input bounds them. -/
def takeNodeWithin : Nat → Decoder Node
  | 0 => failure
  | levels + 1 => do
    takeNodeContent (takeNodeWithin levels) (← takeShort)

/-- The binary form of a node. -/
def Node.toBytes (n : Node) : List UInt8 := n.encode

/-- The node at the front of a byte string. -/
def Node.ofBytes? (bytes : List UInt8) : Option Node :=
  (takeNodeWithin bytes.length bytes).map (·.1)

/-- The binary form of a query. -/
def Query.toBytes (q : Query) : List UInt8 := Node.encodeQuery q

/-- The query at the front of a byte string. -/
def Query.ofBytes? (bytes : List UInt8) : Option Query :=
  (takeQuery (takeNodeWithin bytes.length) bytes).map (·.1)

end RecordGraph
