import RecordGraph.Connection.Session
import RecordGraph.Sql.Command
import RecordGraph.Value.Decode

/-!
# Connections

A `Connection σ` is a database as a program sees it, with everything that it remembers in a state
`σ`. What a query reads is settled when it is sent: the result says what every read gives and
whether it can be closed.

* `Connection.insert`: adds a row and learns its key in the way of the dialect.
-/
namespace RecordGraph

/-- What successive reads give: an item, the end, or a failure. Later reads give the end. -/
abbrev Feed (α : Type) := List (Except Error (Option α))

/-- The result of a query. -/
structure Rows where
  reads : Feed (List Value)
  /-- What closing gives. -/
  closing : Except Error Unit

/-- A database with its state. -/
structure Connection (σ : Type) where
  dialect : Dialect
  /-- The number of rows that a command touches. -/
  execute : Command → Session σ Nat
  query : Command → Session σ Rows
  /-- The result of a query is let go. -/
  release : StateM σ Unit
  /-- The key that the last insertion got. -/
  lastInsertId : Session σ (Option Value)
  nextVersion : Option Int64 → StateM σ Int64
  freshUuid : StateM σ Uuid
  freshUlid : StateM σ (BitVec 128)

namespace Connection

/-- The n-th key that is made up where no randomness is at hand. -/
def madeUpKey (n : Nat) : BitVec 128 := BitVec.ofNat 128 (0x5ca1ab1e000040008000000000000000 + n)

/-- The connection beside another state. -/
def beside (τ : Type) (db : Connection σ) : Connection (τ × σ) where
  dialect := db.dialect
  execute c := (db.execute c).onSecond
  query c := (db.query c).onSecond
  release := stateOnSecond db.release
  lastInsertId := db.lastInsertId.onSecond
  nextVersion previous := stateOnSecond (db.nextVersion previous)
  freshUuid := stateOnSecond db.freshUuid
  freshUlid := stateOnSecond db.freshUlid

/-- A result is closed. -/
def close (db : Connection σ) (closing : Except Error Unit) : Session σ Unit := do
  Session.lift db.release
  Session.ofExcept closing

/-- A command whose effect does not matter. -/
def run (db : Connection σ) (c : Command) : Session σ Unit := do
  let _ ← db.execute c

/-- The first row of a result, which is closed behind it. -/
def firstRow (db : Connection σ) (rows : Rows) : Session σ (Option (List Value)) := do
  let closed ← (db.close rows.closing).attempt
  match rows.reads.head?.getD (.ok none), closed with
  | .ok row, .ok () => pure row
  | .error e, closed => throw (e.withCleanup closed)
  | .ok _, .error e => throw e

/-- The database assigns the key of the row. -/
def assignsKey (table : Table) (fields : List Field) : Bool :=
  table.primaryKey.receiver == .autoPrimaryKey
    && !fields.any fun f => f.column.primaryKey && !f.value.isNull

/-- Adds a row and gives the key that the database assigned, if it did. A key among the fields is
not given back. -/
def insert (db : Connection σ) (table : Table) (fields : List Field) :
    Session σ (Option Value) := do
  let key := table.primaryKey
  if assignsKey table fields then
    match db.dialect.insertStrategy with
    | .returning => do
      let rows ← db.query (.insert table fields (some key))
      match (← db.firstRow rows).bind List.head? with
      | some raw => do
        let v ← Session.ofExcept (key.receiver.decode key.name raw)
        pure (some v)
      | none => throw (.record (.noKeyReturned table.name))
    | .lastInsertId => do
      db.run (.insert table fields none)
      db.lastInsertId
  else do
    db.run (.insert table fields none)
    pure none

/-- Creates the tables of a schema. -/
def createSchema (db : Connection σ) (s : Schema) : Session σ Unit :=
  s.creation.forM fun c => do
    let command ← Session.ofExcept c
    db.run command

/-- Drops the tables of a schema. -/
def destroySchema (db : Connection σ) (s : Schema) : Session σ Unit := s.destruction.forM db.run

end Connection

end RecordGraph
