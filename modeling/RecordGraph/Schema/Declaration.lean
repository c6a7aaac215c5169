import RecordGraph.Value.Receiver

/-!
# Schema declarations

What the user of a schema writes down: tables with their columns and references, and association
tables between two tables. `Schema.ofDeclaration` resolves a declaration.
-/
namespace RecordGraph

/-- A column as declared. -/
structure ColumnDecl where
  /-- The name in the database. -/
  name : String
  /-- The name of the field; the database name where it is left out. -/
  identifier : Option String
  receiver : Receiver
  role : Role
  nullable : Bool
  primaryKey : Bool
  unique : Bool
  /-- For enumeration columns, the table of the named values. -/
  enumTable : Option String
  deriving DecidableEq

/-- A foreign key column that points at another table's primary key. -/
structure ReferenceDecl where
  identifier : String
  column : String
  targetTable : String
  /-- The name of the relation seen from the target, if it has one. -/
  reverseIdentifier : Option String
  deriving DecidableEq

structure TableDecl where
  name : String
  columns : List ColumnDecl
  references : List ReferenceDecl
  deriving DecidableEq

/-- A table of links between two tables, with the name of the relation seen from either side. -/
structure AssociationDecl where
  table : String
  leftTable : String
  leftColumn : String
  leftIdentifier : String
  rightTable : String
  rightColumn : String
  rightIdentifier : String
  deriving DecidableEq

structure SchemaDecl where
  database : String
  tables : List TableDecl
  associations : List AssociationDecl
  deriving DecidableEq

/-- The database of a schema that names none. -/
def SchemaDecl.defaultDatabase : String := "default"

end RecordGraph
