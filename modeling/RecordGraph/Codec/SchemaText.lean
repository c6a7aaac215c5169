import RecordGraph.Json.Fields
import RecordGraph.Schema.Basic

/-!
# Schemas as documents

The JSON forms of schema declarations and of resolved columns, relations and tables. A table is
read only if its key index names a column that is marked as the primary key.
-/
namespace RecordGraph

open Json

/-! ## Declarations -/

def ColumnDecl.toJson (c : ColumnDecl) : Json := ofEntries [
  ("name", ofText c.name),
  ("identifier", ofOption ofText c.identifier),
  ("receiver", ofText c.receiver.name),
  ("schema_type", ofText c.role.name),
  ("nullable", .bool c.nullable),
  ("primary_key", .bool c.primaryKey),
  ("unique", .bool c.unique),
  ("enum_table", ofOption ofText c.enumTable)]

def ColumnDecl.read : Reader ColumnDecl := fun depth j => do
  let f ← fields? ["name", "identifier", "receiver", "schema_type", "nullable", "primary_key",
    "unique", "enum_table"] depth j
  some {
    name := ← f.required "name" readText
    identifier := ← f.nullableWithDefault "identifier" readText
    receiver := ← f.required "receiver" (readName Receiver.ofName?)
    role := ← f.withDefault "schema_type" .column (readName Role.ofName?)
    nullable := ← f.withDefault "nullable" false readBool
    primaryKey := ← f.withDefault "primary_key" false readBool
    unique := ← f.withDefault "unique" false readBool
    enumTable := ← f.nullableWithDefault "enum_table" readText }

def ReferenceDecl.toJson (r : ReferenceDecl) : Json := ofEntries [
  ("identifier", ofText r.identifier),
  ("column", ofText r.column),
  ("target_table", ofText r.targetTable),
  ("reverse_identifier", ofOption ofText r.reverseIdentifier)]

def ReferenceDecl.read : Reader ReferenceDecl := fun depth j => do
  let f ← fields? ["identifier", "column", "target_table", "reverse_identifier"] depth j
  some {
    identifier := ← f.required "identifier" readText
    column := ← f.required "column" readText
    targetTable := ← f.required "target_table" readText
    reverseIdentifier := ← f.nullableWithDefault "reverse_identifier" readText }

def TableDecl.toJson (t : TableDecl) : Json := ofEntries [
  ("name", ofText t.name),
  ("columns", .array (t.columns.map ColumnDecl.toJson)),
  ("references", .array (t.references.map ReferenceDecl.toJson))]

def TableDecl.read : Reader TableDecl := fun depth j => do
  let f ← fields? ["name", "columns", "references"] depth j
  some {
    name := ← f.required "name" readText
    columns := ← f.required "columns" (readList ColumnDecl.read)
    references := ← f.withDefault "references" [] (readList ReferenceDecl.read) }

def AssociationDecl.toJson (a : AssociationDecl) : Json := ofEntries [
  ("table", ofText a.table),
  ("left_table", ofText a.leftTable),
  ("left_column", ofText a.leftColumn),
  ("left_identifier", ofText a.leftIdentifier),
  ("right_table", ofText a.rightTable),
  ("right_column", ofText a.rightColumn),
  ("right_identifier", ofText a.rightIdentifier)]

def AssociationDecl.read : Reader AssociationDecl := fun depth j => do
  let f ← fields? ["table", "left_table", "left_column", "left_identifier", "right_table",
    "right_column", "right_identifier"] depth j
  some {
    table := ← f.required "table" readText
    leftTable := ← f.required "left_table" readText
    leftColumn := ← f.required "left_column" readText
    leftIdentifier := ← f.required "left_identifier" readText
    rightTable := ← f.required "right_table" readText
    rightColumn := ← f.required "right_column" readText
    rightIdentifier := ← f.required "right_identifier" readText }

def SchemaDecl.toJson (s : SchemaDecl) : Json := ofEntries [
  ("database", ofText s.database),
  ("tables", .array (s.tables.map TableDecl.toJson)),
  ("associations", .array (s.associations.map AssociationDecl.toJson))]

def SchemaDecl.read : Reader SchemaDecl := fun depth j => do
  let f ← fields? ["database", "tables", "associations"] depth j
  some {
    database := ← f.withDefault "database" SchemaDecl.defaultDatabase readText
    tables := ← f.required "tables" (readList TableDecl.read)
    associations := ← f.withDefault "associations" [] (readList AssociationDecl.read) }

/-- The declaration that a document holds. -/
def SchemaDecl.ofJson? (j : Json) : Option SchemaDecl := SchemaDecl.read depthLimit j

/-! ## Resolved tables -/

def Column.toJson (c : Column) : Json := ofEntries [
  ("name", ofText c.name),
  ("identifier", ofText c.identifier),
  ("receiver", ofText c.receiver.name),
  ("schema_type", ofText c.role.name),
  ("nullable", .bool c.nullable),
  ("primary_key", .bool c.primaryKey),
  ("unique", .bool c.unique),
  ("enum_table", ofOption ofText c.enumTable)]

def Column.read : Reader Column := fun depth j => do
  let f ← fields? ["name", "identifier", "receiver", "schema_type", "nullable", "primary_key",
    "unique", "enum_table"] depth j
  some {
    name := ← f.required "name" readText
    identifier := ← f.required "identifier" readText
    receiver := ← f.required "receiver" (readName Receiver.ofName?)
    role := ← f.required "schema_type" (readName Role.ofName?)
    nullable := ← f.required "nullable" readBool
    primaryKey := ← f.required "primary_key" readBool
    unique := ← f.required "unique" readBool
    enumTable := ← f.nullable "enum_table" readText }

/-- The column that a document holds. -/
def Column.ofJson? (j : Json) : Option Column := Column.read depthLimit j

def Reference.toJson (r : Reference) : Json := ofEntries [
  ("identifier", ofText r.identifier),
  ("column", ofText r.column),
  ("target", ofText r.target),
  ("target_column", ofText r.targetColumn)]

def Reference.read : Reader Reference := fun depth j => do
  let f ← fields? ["identifier", "column", "target", "target_column"] depth j
  some {
    identifier := ← f.required "identifier" readText
    column := ← f.required "column" readText
    target := ← f.required "target" readText
    targetColumn := ← f.required "target_column" readText }

def Reverse.toJson (r : Reverse) : Json := ofEntries [
  ("identifier", ofText r.identifier),
  ("source", ofText r.source),
  ("column", ofText r.column),
  ("unique", .bool r.unique)]

def Reverse.read : Reader Reverse := fun depth j => do
  let f ← fields? ["identifier", "source", "column", "unique"] depth j
  some {
    identifier := ← f.required "identifier" readText
    source := ← f.required "source" readText
    column := ← f.required "column" readText
    unique := ← f.required "unique" readBool }

def ManyMany.toJson (m : ManyMany) : Json := ofEntries [
  ("identifier", ofText m.identifier),
  ("association", ofText m.association),
  ("own_column", ofText m.ownColumn),
  ("target_column", ofText m.targetColumn),
  ("target", ofText m.target)]

def ManyMany.read : Reader ManyMany := fun depth j => do
  let f ← fields? ["identifier", "association", "own_column", "target_column", "target"] depth j
  some {
    identifier := ← f.required "identifier" readText
    association := ← f.required "association" readText
    ownColumn := ← f.required "own_column" readText
    targetColumn := ← f.required "target_column" readText
    target := ← f.required "target" readText }

/-- The table with these parts, if the index names a key column. -/
def Table.ofParts? (database name : String) (columns : List Column) (keyIndex : Nat)
    (references : List Reference) (reverses : List Reverse) (manyManys : List ManyMany) :
    Option Table :=
  if h : keyIndex < columns.length then
    if hp : columns[keyIndex].primaryKey = true then
      some {
        database, name, columns, keyIndex, references, reverses, manyManys
        key_lt := h
        key_primary := hp }
    else none
  else none

def Table.toJson (t : Table) : Json := ofEntries [
  ("database", ofText t.database),
  ("name", ofText t.name),
  ("columns", .array (t.columns.map Column.toJson)),
  ("primary_key", ofNat t.keyIndex),
  ("references", .array (t.references.map Reference.toJson)),
  ("reverse", .array (t.reverses.map Reverse.toJson)),
  ("many_many", .array (t.manyManys.map ManyMany.toJson))]

def Table.read : Reader Table := fun depth j => do
  let f ← fields? ["database", "name", "columns", "primary_key", "references", "reverse",
    "many_many"] depth j
  let database ← f.required "database" readText
  let name ← f.required "name" readText
  let columns ← f.required "columns" (readList Column.read)
  let keyIndex ← f.required "primary_key" readUInt64
  let references ← f.required "references" (readList Reference.read)
  let reverses ← f.required "reverse" (readList Reverse.read)
  let manyManys ← f.required "many_many" (readList ManyMany.read)
  Table.ofParts? database name columns keyIndex.toNat references reverses manyManys

def Association.toJson (a : Association) : Json := ofEntries [
  ("name", ofText a.name),
  ("left_table", ofText a.leftTable),
  ("left_column", ofText a.leftColumn),
  ("right_table", ofText a.rightTable),
  ("right_column", ofText a.rightColumn)]

end RecordGraph
