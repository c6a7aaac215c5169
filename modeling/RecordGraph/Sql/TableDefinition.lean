import RecordGraph.Schema.Table
import RecordGraph.Sql.Dialect
import RecordGraph.Sqlite.Affinity

/-!
# Table definitions

The statements that create and drop the tables of a schema, with the column types of each dialect.

* `Dialect.columnType`: the type of a column.
* `Dialect.createTable`, `Dialect.createAssociation`, `Dialect.dropTable`.
-/
namespace RecordGraph.Dialect

/-- SQLite knows types only as affinities. -/
def sqliteType (r : Receiver) : String := (Sqlite.Affinity.ofReceiver r).typeName

/-- PostgreSQL has no unsigned types; an unsigned column takes the next wider signed one. -/
def postgresqlType : Receiver → String
  | .string => "TEXT"
  | .int8 | .int16 | .uint8 => "SMALLINT"
  | .int32 | .uint16 => "INTEGER"
  | .int64 | .uint32 | .uint64 | .autoPrimaryKey => "BIGINT"
  | .float32 => "REAL"
  | .float64 => "DOUBLE PRECISION"
  | .time => "TIMESTAMPTZ"
  | .bool => "BOOLEAN"
  | .uuid => "UUID"
  | .ulid => "CHAR(26)"
  | .bytes => "BYTEA"

/-- MySQL cannot index a text of any length, so an indexed text is bounded. -/
def mysqlType (indexed : Bool) : Receiver → String
  | .string => if indexed then "VARCHAR(255)" else "TEXT"
  | .int8 => "TINYINT"
  | .int16 => "SMALLINT"
  | .int32 => "INT"
  | .int64 | .autoPrimaryKey => "BIGINT"
  | .uint8 => "TINYINT UNSIGNED"
  | .uint16 => "SMALLINT UNSIGNED"
  | .uint32 => "INT UNSIGNED"
  | .uint64 => "BIGINT UNSIGNED"
  | .float32 => "FLOAT"
  | .float64 => "DOUBLE"
  | .time => "DATETIME(6)"
  | .bool => "BOOLEAN"
  | .uuid => "CHAR(36)"
  | .ulid => "CHAR(26)"
  | .bytes => "BLOB"

/-- The type of a column. -/
def columnType (d : Dialect) (c : Column) : String :=
  match d with
  | .sqlite => sqliteType c.receiver
  | .postgresql => postgresqlType c.receiver
  | .mysql => mysqlType (c.primaryKey || c.unique) c.receiver
  | .ansi => if c.receiver = .string then "TEXT" else "BIGINT"

/-- The type of a key that the database assigns. -/
def autoPrimaryKey : Dialect → String
  | .sqlite => "INTEGER PRIMARY KEY AUTOINCREMENT"
  | .postgresql | .ansi => "BIGSERIAL PRIMARY KEY"
  | .mysql => "BIGINT AUTO_INCREMENT PRIMARY KEY"

/-- A column's name, type and constraints. -/
def columnDefinition (d : Dialect) (c : Column) : String :=
  let head := d.quote c.name ++ " "
  if c.primaryKey && c.receiver == .autoPrimaryKey then head ++ d.autoPrimaryKey
  else if c.primaryKey then head ++ d.columnType c ++ " PRIMARY KEY"
  else head ++ d.columnType c ++ (if c.nullable then "" else " NOT NULL")
    ++ (if c.unique then " UNIQUE" else "")

/-- A foreign key constraint. -/
def foreignKey (d : Dialect) (column table key : String) : String :=
  "FOREIGN KEY (" ++ d.quote column ++ ") REFERENCES " ++ d.quote table ++ " (" ++ d.quote key
    ++ ")"

def createHead (d : Dialect) (table : String) : String :=
  "CREATE TABLE IF NOT EXISTS " ++ d.quote table ++ " ("

/-- The statement that creates a table. -/
def createTable (d : Dialect) (t : Table) : String :=
  let columns := t.columns.map d.columnDefinition
  let keys := t.references.map fun r => ", " ++ d.foreignKey r.column r.target r.targetColumn
  d.createHead t.name ++ ", ".intercalate columns ++ "".intercalate keys ++ ")"

/-- The statement that creates an association table, keyed by both foreign keys. -/
def createAssociation (d : Dialect) (a : Association) (leftKey rightKey : Column) : String :=
  let side (column : String) (key : Column) : String :=
    d.quote column ++ " " ++ d.columnType key ++ " NOT NULL, "
  d.createHead a.name ++ side a.leftColumn leftKey ++ side a.rightColumn rightKey
    ++ "PRIMARY KEY (" ++ d.quote a.leftColumn ++ ", " ++ d.quote a.rightColumn ++ ")"
    ++ ", " ++ d.foreignKey a.leftColumn a.leftTable leftKey.name
    ++ ", " ++ d.foreignKey a.rightColumn a.rightTable rightKey.name ++ ")"

/-- The statement that drops a table. -/
def dropTable (d : Dialect) (name : String) : String := "DROP TABLE IF EXISTS " ++ d.quote name

end RecordGraph.Dialect
