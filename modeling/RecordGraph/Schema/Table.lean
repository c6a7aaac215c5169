import RecordGraph.Value.Receiver

/-!
# Resolved tables

A `Table` knows its columns and every relation that starts from it, in both directions. It always
has a key: `Table.primaryKey` is a column of the table that is marked as the primary key.

* `Table.column?`: a column by its name, else by its identifier.
-/
namespace RecordGraph

/-- A resolved column. -/
structure Column where
  name : String
  identifier : String
  receiver : Receiver
  role : Role
  nullable : Bool
  primaryKey : Bool
  unique : Bool
  enumTable : Option String
  deriving DecidableEq, Repr, Inhabited

def Column.isLock (c : Column) : Bool := c.role.isLock

/-- A relation to one row of another table, through a foreign key of this one. -/
structure Reference where
  identifier : String
  /-- The foreign key column. -/
  column : String
  target : String
  /-- The key column of the target. -/
  targetColumn : String
  deriving DecidableEq, Repr

/-- A relation to the rows of another table that refer to this one. -/
structure Reverse where
  identifier : String
  /-- The table that holds the foreign key. -/
  source : String
  /-- The foreign key column. -/
  column : String
  /-- At most one row refers to each row. -/
  unique : Bool
  deriving DecidableEq, Repr

/-- A relation to rows of another table through an association table. -/
structure ManyMany where
  identifier : String
  association : String
  /-- The association's column for this table. -/
  ownColumn : String
  /-- The association's column for the target. -/
  targetColumn : String
  target : String
  deriving DecidableEq, Repr

/-- A resolved table. -/
structure Table where
  database : String
  name : String
  columns : List Column
  keyIndex : Nat
  references : List Reference
  reverses : List Reverse
  manyManys : List ManyMany
  key_lt : keyIndex < columns.length
  key_primary : columns[keyIndex].primaryKey = true
  deriving DecidableEq

/-- A table of links between two tables. -/
structure Association where
  name : String
  leftTable : String
  leftColumn : String
  rightTable : String
  rightColumn : String
  deriving DecidableEq, Repr

namespace Table

/-- The key column. -/
def primaryKey (t : Table) : Column := t.columns.get ⟨t.keyIndex, t.key_lt⟩

theorem primaryKey_mem (t : Table) : t.primaryKey ∈ t.columns := List.getElem_mem _

theorem primaryKey_primary (t : Table) : t.primaryKey.primaryKey = true := t.key_primary

/-- A column by its name in the database. -/
def named? (t : Table) (name : String) : Option Column := t.columns.find? (·.name == name)

/-- A column by its name, else by its identifier. -/
def column? (t : Table) (key : String) : Option Column :=
  t.named? key <|> t.columns.find? (·.identifier == key)

/-- The place of a column among the table's columns. -/
def position? (t : Table) (name : String) : Option Nat :=
  t.columns.findIdx? (·.name == name)

/-- The column that guards writes. -/
def lockColumn? (t : Table) : Option Column := t.columns.find? (·.isLock)

def reference? (t : Table) (identifier : String) : Option Reference :=
  t.references.find? (·.identifier == identifier)

def reverse? (t : Table) (identifier : String) : Option Reverse :=
  t.reverses.find? (·.identifier == identifier)

def manyMany? (t : Table) (identifier : String) : Option ManyMany :=
  t.manyManys.find? (·.identifier == identifier)

/-- Some relation of the table has this name. -/
def hasRelation (t : Table) (identifier : String) : Bool :=
  (t.reference? identifier).isSome || (t.reverse? identifier).isSome
    || (t.manyMany? identifier).isSome

end Table

end RecordGraph
