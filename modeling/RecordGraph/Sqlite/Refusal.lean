import RecordGraph.Error
import RecordGraph.Sql.Basic

/-!
# Refused statements

Why SQLite refuses a statement, and the error that the connection makes of it: a value that has to
be unique is an error of its own, everything else keeps the statement.
-/
namespace RecordGraph.Sqlite

/-- Why a statement is refused. -/
inductive Refusal where
  | noTable (name : String)
  /-- Two columns of a new table have one name. -/
  | duplicateColumn (name : String)
  /-- Something other than an integer would number a row. -/
  | mismatch
  /-- No number is left for a row. -/
  | full
  | notNull (table column : String)
  | unique (table : String) (columns : List String)
  | foreignKey
  /-- A foreign key refers to a column whose values are no keys. -/
  | noKey (table target : String)
  | nestedTransaction
  /-- A transaction would end where none is open. -/
  | noTransaction (verb : String)
  /-- Not a statement that the store can carry out. -/
  | unsupported
  deriving DecidableEq

namespace Refusal

/-- The columns that a uniqueness rule covers. -/
def columnList (table : String) (columns : List String) : String :=
  ", ".intercalate (columns.map fun c => table ++ "." ++ c)

def message : Refusal → String
  | .noTable name => "no such table: " ++ name
  | .duplicateColumn name => "duplicate column name: " ++ name
  | .mismatch => "datatype mismatch"
  | .full => "database or disk is full"
  | .notNull table column => "NOT NULL constraint failed: " ++ table ++ "." ++ column
  | .unique table columns => "UNIQUE constraint failed: " ++ columnList table columns
  | .foreignKey => "FOREIGN KEY constraint failed"
  | .noKey table target =>
    "foreign key mismatch - " ++ Dialect.sqlite.quote table ++ " referencing "
      ++ Dialect.sqlite.quote target
  | .nestedTransaction => "cannot start a transaction within a transaction"
  | .noTransaction verb => "cannot " ++ verb ++ " - no transaction is active"
  | .unsupported => "statement not supported by this store"

/-- The table as it is read off the list of columns: up to the first point. -/
def firstTable (columns : String) : String :=
  String.ofList (columns.toList.takeWhile (· != '.'))

/-- The error of a refused statement. -/
def error (operation : String) (s : Statement) (r : Refusal) : Error :=
  match r with
  | .unique table columns => .uniqueValue (firstTable (columnList table columns)) (some r.message)
  | _ => .query operation s.sql s.args r.message

end Refusal

end RecordGraph.Sqlite
