import RecordGraph.Value.Basic

/-!
# SQL dialects

The databases whose SQL is written, and what differs between them below the level of statements.
A `Backend` names a database; a `Dialect` is a way of writing SQL. `ansi` is the way that the
others deviate from; it numbers its placeholders.

* `Dialect.quote`: an identifier between quotes, its own quotes doubled.
* `Dialect.placeholder`: the mark of the n-th argument.
-/
namespace RecordGraph

/-- A kind of database. -/
inductive Backend where
  | sqlite
  | postgresql
  | mysql
  deriving DecidableEq, Repr, Inhabited

namespace Backend

def all : List Backend := [.sqlite, .postgresql, .mysql]

def name : Backend → String
  | .sqlite => "sqlite"
  | .postgresql => "postgresql"
  | .mysql => "mysql"

/-- The other names a backend is known by. -/
def aliases : Backend → List String
  | .sqlite => ["sqlite3"]
  | .postgresql => ["postgres", "pg"]
  | .mysql => ["mariadb"]

/-- A backend by any of its names, in either case. -/
def parse? (s : String) : Option Backend :=
  let s := String.ofList (s.toList.map Char.toLower)
  all.find? fun b => b.name == s || b.aliases.contains s

/-- A backend by the names that documents use. -/
def ofName? (s : String) : Option Backend :=
  if s = "postgres" then some .postgresql else all.find? (·.name == s)

/-- What is said of a name that no backend has. -/
def unknownMessage (s : String) : String := "unknown dialect " ++ Text.quoted s

/-- Placeholders are `$1`, `$2`, … rather than `?`. -/
def numbersPlaceholders : Backend → Bool
  | .postgresql => true
  | _ => false

/-- The number by which MySQL reports a duplicate key. -/
def mysqlDuplicateEntry : Nat := 1062

/-- A number by which MySQL reports a violated unique constraint. -/
def isMysqlUniqueViolation (code : Nat) : Bool := code == mysqlDuplicateEntry

end Backend

/-- A way of writing SQL. -/
inductive Dialect where
  | sqlite
  | postgresql
  | mysql
  | ansi
  deriving DecidableEq, Repr, Inhabited

/-- How the key of an inserted row is learned. -/
inductive InsertStrategy where
  /-- The statement returns it. -/
  | returning
  /-- The connection is asked for it afterwards. -/
  | lastInsertId
  deriving DecidableEq, Repr

def InsertStrategy.name : InsertStrategy → String
  | .returning => "returning"
  | .lastInsertId => "last_insert_id"

namespace Dialect

def backend : Dialect → Backend
  | .sqlite => .sqlite
  | .postgresql => .postgresql
  | .mysql => .mysql
  | .ansi => .postgresql

def ofName? : String → Option Dialect
  | "sqlite" => some .sqlite
  | "postgresql" => some .postgresql
  | "mysql" => some .mysql
  | "ansi" => some .ansi
  | _ => none

/-- The quote around identifiers. -/
def quoteChar : Dialect → Char
  | .mysql => '\x60'
  | _ => '"'

/-- The characters of a name, with every quote written twice. -/
def doubled (q : Char) : List Char → List Char
  | [] => []
  | c :: rest => if c = q then q :: q :: doubled q rest else c :: doubled q rest

/-- The characters of a quoted name. -/
def quoteChars (d : Dialect) (name : List Char) : List Char :=
  d.quoteChar :: doubled d.quoteChar name ++ [d.quoteChar]

/-- A quoted identifier. -/
def quote (d : Dialect) (name : String) : String := String.ofList (d.quoteChars name.toList)

/-- The mark of the argument with the given number, counted from 1. -/
def placeholder (d : Dialect) (index : Nat) : String :=
  if d.backend.numbersPlaceholders then "$" ++ toString index else "?"

/-- Rows can be locked while they are read. -/
def locksRows : Dialect → Bool
  | .sqlite => false
  | _ => true

def insertStrategy : Dialect → InsertStrategy
  | .sqlite | .mysql => .lastInsertId
  | .postgresql | .ansi => .returning

/-- The end of an insertion that sets no column. -/
def defaultValues : Dialect → String
  | .mysql => " () VALUES ()"
  | _ => " DEFAULT VALUES"

/-- The literal of the escape character in patterns; a backslash is doubled where literals take it
as an escape themselves. -/
def likeEscape : Dialect → String
  | .mysql => "'\\\\'"
  | _ => "'\\'"

def begin : Dialect → String
  | .mysql => "START TRANSACTION"
  | _ => "BEGIN"

def commit (_ : Dialect) : String := "COMMIT"

def rollback (_ : Dialect) : String := "ROLLBACK"

end Dialect

end RecordGraph
