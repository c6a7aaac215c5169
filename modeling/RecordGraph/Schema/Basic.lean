import RecordGraph.Error
import RecordGraph.Schema.Declaration
import RecordGraph.Schema.Table

/-!
# Schemas

A `Schema` is a set of tables whose relations are wired in both directions, and the association
tables between them.

* `Schema.ofDeclaration`: resolves a declaration in two passes, first every table with its key,
  then the relations, so that a table may refer to itself or to a later one.
* `Schema.table?`: a table by its name.
-/
namespace RecordGraph

/-- A resolved schema. -/
structure Schema where
  database : String
  tables : List Table
  associations : List Association
  deriving DecidableEq

namespace Schema

/-- A declared column, resolved. -/
def columnOf (c : ColumnDecl) : Column where
  name := c.name
  identifier := c.identifier.getD c.name
  receiver := c.receiver
  role := c.role
  nullable := c.nullable
  primaryKey := c.primaryKey
  unique := c.unique
  enumTable := c.enumTable

/-- The columns of a declared table after those already resolved: no name and no identifier comes
twice, and a lock column is an integer. -/
def columnsOf (table : String) (done : List Column) :
    List ColumnDecl → Except SchemaFault (List Column)
  | [] => .ok done
  | c :: rest =>
    let column := columnOf c
    if done.any (fun d => d.name == column.name || d.identifier == column.identifier) then
      .error (.duplicateColumn table c.name)
    else if column.isLock && column.receiver.intBits?.isNone then
      .error (.lockNotInteger table c.name)
    else columnsOf table (done ++ [column]) rest

/-- The places of the columns marked as primary key. -/
def keyIndices (columns : List Column) : List Nat :=
  (List.range columns.length).filter fun i => (columns[i]?.map (·.primaryKey)).getD false

theorem lt_of_mem_keyIndices {columns : List Column} {i : Nat} (h : i ∈ keyIndices columns) :
    i < columns.length := by
  simpa using (List.mem_filter.1 h).1

theorem primary_of_mem_keyIndices {columns : List Column} {i : Nat} (h : i ∈ keyIndices columns) :
    (columns.get ⟨i, lt_of_mem_keyIndices h⟩).primaryKey = true := by
  have hi := lt_of_mem_keyIndices h
  have := (List.mem_filter.1 h).2
  simpa [List.getElem?_eq_getElem hi] using this

/-- A declared table with its columns and its key, without relations. -/
def tableOf (database : String) (t : TableDecl) : Except SchemaFault Table := do
  let columns ← columnsOf t.name [] t.columns
  match h : keyIndices columns with
  | [] => .error (.noPrimaryKey t.name)
  | [i] =>
    if 1 < (columns.filter (·.isLock)).length then .error (.manyLocks t.name)
    else
      have hi : i ∈ keyIndices columns := h ▸ List.mem_singleton.2 rfl
      .ok {
        database, name := t.name, columns, keyIndex := i
        references := [], reverses := [], manyManys := []
        key_lt := lt_of_mem_keyIndices hi
        key_primary := primary_of_mem_keyIndices hi }
  | _ :: _ :: _ => .error (.manyPrimaryKeys t.name)

/-- A table by its name. -/
def find? (tables : List Table) (name : String) : Option Table :=
  tables.find? (·.name == name)

/-- The first pass: every declared table after those already resolved. -/
def tablesOf (database : String) (done : List Table) :
    List TableDecl → Except SchemaFault (List Table)
  | [] => .ok done
  | t :: rest =>
    if (find? done t.name).isSome then .error (.duplicateTable t.name)
    else do
      let table ← tableOf database t
      tablesOf database (done ++ [table]) rest

def require (tables : List Table) (name : String) : Except SchemaFault Table :=
  match find? tables name with
  | some t => .ok t
  | none => .error (.unknownTable name)

/-- The tables with one of them changed. -/
def modify (tables : List Table) (name : String) (f : Table → Table) : List Table :=
  tables.map fun t => if t.name == name then f t else t

/-- A relation name that the table does not have yet. -/
def claim (tables : List Table) (table identifier : String) : Except SchemaFault Unit :=
  match find? tables table with
  | some t =>
    if t.hasRelation identifier then .error (.duplicateRelation table identifier) else .ok ()
  | none => .ok ()

def addReference (r : Reference) (t : Table) : Table := { t with references := t.references ++ [r] }

def addReverse (r : Reverse) (t : Table) : Table := { t with reverses := t.reverses ++ [r] }

def addManyMany (m : ManyMany) (t : Table) : Table := { t with manyManys := t.manyManys ++ [m] }

/-- A declared reference of `owner`, wired on both tables. -/
def wireReference (owner : String) (tables : List Table) (r : ReferenceDecl) :
    Except SchemaFault (List Table) := do
  let target ← require tables r.targetTable
  let fk ← match (find? tables owner).bind (·.column? r.column) with
    | some fk => .ok fk
    | none => .error (.unknownReferenceColumn owner r.identifier r.column)
  claim tables owner r.identifier
  let tables := modify tables owner
    (addReference ⟨r.identifier, fk.name, r.targetTable, target.primaryKey.name⟩)
  match r.reverseIdentifier with
  | none => .ok tables
  | some reverse =>
    claim tables r.targetTable reverse
    .ok (modify tables r.targetTable
      (addReverse ⟨reverse, owner, fk.name, fk.unique || fk.primaryKey⟩))

/-- The second pass over the references of one declared table. -/
def wireTable (tables : List Table) (t : TableDecl) : Except SchemaFault (List Table) :=
  t.references.foldlM (wireReference t.name) tables

/-- A declared association, wired on both sides. -/
def wireAssociation (tables : List Table) (a : AssociationDecl) :
    Except SchemaFault (List Table) := do
  let _ ← require tables a.leftTable
  let _ ← require tables a.rightTable
  claim tables a.leftTable a.leftIdentifier
  let tables := modify tables a.leftTable
    (addManyMany ⟨a.leftIdentifier, a.table, a.leftColumn, a.rightColumn, a.rightTable⟩)
  claim tables a.rightTable a.rightIdentifier
  .ok (modify tables a.rightTable
    (addManyMany ⟨a.rightIdentifier, a.table, a.rightColumn, a.leftColumn, a.leftTable⟩))

def associationOf (a : AssociationDecl) : Association where
  name := a.table
  leftTable := a.leftTable
  leftColumn := a.leftColumn
  rightTable := a.rightTable
  rightColumn := a.rightColumn

/-- A declaration, resolved. -/
def resolve (d : SchemaDecl) : Except SchemaFault Schema := do
  let tables ← tablesOf d.database [] d.tables
  let tables ← d.tables.foldlM wireTable tables
  let tables ← d.associations.foldlM wireAssociation tables
  .ok ⟨d.database, tables, d.associations.map associationOf⟩

/-- The schema that a declaration describes. -/
def ofDeclaration (d : SchemaDecl) : Except Error Schema := (resolve d).mapError .schema

def table? (s : Schema) (name : String) : Option Table := find? s.tables name

/-- A table that a query names. -/
def requireTable (s : Schema) (name : String) : Except Error Table :=
  match s.table? name with
  | some t => .ok t
  | none => .error (.invalidQuery (.unknownTable name))

end Schema

namespace Table

/-- A column that a query names, by its name, else by its identifier. -/
def requireColumn (t : Table) (key : String) : Except Error Column :=
  match t.column? key with
  | some c => .ok c
  | none => .error (.invalidQuery (.unknownColumn t.name key))

/-- A relation through an association table that a query names. -/
def requireManyMany (t : Table) (identifier : String) : Except Error ManyMany :=
  match t.manyMany? identifier with
  | some m => .ok m
  | none => .error (.invalidQuery (.unknownManyMany t.name identifier))

end Table

end RecordGraph
