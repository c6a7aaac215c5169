import RecordGraph.Schema.Basic
import RecordGraph.Sql.Select
import RecordGraph.Sql.TableDefinition

/-!
# Commands

A `Command` is anything that is sent to a database, as data; `Command.statement` writes it for a
dialect. The values of a command become arguments, never text.

* `Schema.creation`, `Schema.destruction`: the commands that make and drop the tables of a schema.
-/
namespace RecordGraph

/-- A column with the value that it is written or compared with. -/
structure Field where
  column : Column
  value : Value
  deriving DecidableEq

/-- What is sent to a database. -/
inductive Command where
  /-- A new row, and a column of it that is reported back. -/
  | insert (table : Table) (fields : List Field) (returning : Option Column)
  /-- New values in the rows whose columns are equal to the guard. -/
  | update (table : Table) (set guard : List Field)
  | delete (table : Table) (guard : List Field)
  /-- No link of the row with a key is left. -/
  | unlinkAll (relation : ManyMany) (key : Value)
  | link (relation : ManyMany) (key target : Value)
  | select (s : Select)
  | count (c : Counting)
  | createTable (table : Table)
  | createAssociation (association : Association) (leftKey rightKey : Column)
  | dropTable (name : String)
  | begin
  | commit
  | rollback

namespace Command

/-- `"a" = ?` for every field. -/
def assignments (separator : String) (fields : List Field) : Sql :=
  Sql.join separator (fields.map fun f =>
    (Sql.ident f.column.name).pushRaw " = " |>.pushParam f.value)

def insertSql (d : Dialect) (table : Table) (fields : List Field) (returning : Option Column) :
    Sql :=
  let head := Sql.raw "INSERT INTO " |>.pushIdent table.name
  let body :=
    if fields.isEmpty then Sql.raw d.defaultValues
    else Sql.raw " " ++ (Sql.join ", " (fields.map fun f => Sql.ident f.column.name)).parens
      ++ Sql.raw " VALUES " ++ (Sql.join ", " (fields.map fun f => Sql.param f.value)).parens
  let tail := match returning with
    | some c => Sql.raw " RETURNING " |>.pushIdent c.name
    | none => Sql.empty
  head ++ body ++ tail

def updateSql (table : Table) (set guard : List Field) : Sql :=
  (Sql.raw "UPDATE " |>.pushIdent table.name |>.pushRaw " SET ") ++ assignments ", " set
    ++ Sql.raw " WHERE " ++ assignments " AND " guard

def deleteSql (table : Table) (guard : List Field) : Sql :=
  (Sql.raw "DELETE FROM " |>.pushIdent table.name |>.pushRaw " WHERE ")
    ++ assignments " AND " guard

def unlinkAllSql (m : ManyMany) (key : Value) : Sql :=
  Sql.raw "DELETE FROM " |>.pushIdent m.association |>.pushRaw " WHERE " |>.pushIdent m.ownColumn
    |>.pushRaw " = " |>.pushParam key

def linkSql (m : ManyMany) (key target : Value) : Sql :=
  Sql.raw "INSERT INTO " |>.pushIdent m.association |>.pushRaw " (" |>.pushIdent m.ownColumn
    |>.pushRaw ", " |>.pushIdent m.targetColumn |>.pushRaw ") VALUES (" |>.pushParam key
    |>.pushRaw ", " |>.pushParam target |>.pushRaw ")"

/-- A command in a dialect. -/
def sql (d : Dialect) : Command → Sql
  | .insert table fields returning => insertSql d table fields returning
  | .update table set guard => updateSql table set guard
  | .delete table guard => deleteSql table guard
  | .unlinkAll relation key => unlinkAllSql relation key
  | .link relation key target => linkSql relation key target
  | .select s => s.sql d
  | .count c => c.sql d
  | .createTable table => Sql.raw (d.createTable table)
  | .createAssociation association leftKey rightKey =>
    Sql.raw (d.createAssociation association leftKey rightKey)
  | .dropTable name => Sql.raw (d.dropTable name)
  | .begin => Sql.raw d.begin
  | .commit => Sql.raw d.commit
  | .rollback => Sql.raw d.rollback

/-- The statement of a command. -/
def statement (c : Command) (d : Dialect) : Statement := (c.sql d).render d

/-- Adds a row. -/
def isInsert : Command → Bool
  | .insert .. | .link .. => true
  | _ => false

end Command

namespace Schema

/-- The command that creates an association table, from the keys of both sides. -/
def associationCreation (s : Schema) (a : Association) : Except Error Command := do
  let left ← (require s.tables a.leftTable).mapError .schema
  let right ← (require s.tables a.rightTable).mapError .schema
  .ok (.createAssociation a left.primaryKey right.primaryKey)

/-- The commands that create the tables of a schema: tables in the order of their declaration, then
associations. -/
def creation (s : Schema) : List (Except Error Command) :=
  s.tables.map (fun t => .ok (.createTable t)) ++ s.associations.map s.associationCreation

/-- The commands that drop the tables of a schema, in the opposite order. -/
def destruction (s : Schema) : List Command :=
  s.associations.reverse.map (fun a => .dropTable a.name)
    ++ s.tables.reverse.map (fun t => .dropTable t.name)

end Schema

end RecordGraph
