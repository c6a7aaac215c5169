import RecordGraph.Query.Resolution
import RecordGraph.Record.Unpack

/-!
# Running queries

* `Query.load`: all objects that a query matches, with what it selects below them.
* `Query.get`: the first of them.
* `Query.count`: their number.
* `Query.loadCursor`: the objects one row at a time, where every row is a whole object.
-/
namespace RecordGraph

/-- A query with its joins and its selection in a dialect. -/
structure Compiled where
  tree : JoinTree
  select : Select

namespace Compiled

def columns (c : Compiled) : List ResultColumn := ResultColumn.ofTree c.tree

def command (c : Compiled) : Command := .select c.select

def statement (c : Compiled) (d : Dialect) : Statement := c.command.statement d

/-- The record of a row, if it has one. -/
def record? (c : Compiled) (row : Row) : Option Record := (Unpacker.records c.tree [row]).head?

end Compiled

namespace QueryOf

/-- A query in a dialect. -/
def compile (q : Query) (d : Dialect) : Except Error Compiled := do
  let tree ← JoinTree.compile .objects "" q
  let select ← q.select tree d
  .ok ⟨tree, select⟩

/-- The count of a query in a dialect. -/
def compileCount (q : Query) (d : Dialect) : Except Error Counting := do
  let tree ← JoinTree.compile .selected "" q
  q.counting tree d

/-- Sends a query. -/
def start (q : Query) (db : Connection σ) (operation : String) :
    Session σ (Compiled × Cursor Row) := do
  let c ← Session.ofExcept (q.compile db.dialect)
  let cursor ← Cursor.start db operation c.command c.columns
  pure (c, cursor)

/-- All objects that a query matches. -/
def load (q : Query) (db : Connection σ) : Session σ (List Record) := do
  let (c, cursor) ← q.start db "load"
  let ((), u) ← Session.withState (Unpacker.start c.tree)
    (cursor.forEach (db.beside Unpacker) fun row => modify fun (u, s) => (u.push row, s))
  pure u.finish

/-- The query for its first object: one row is enough where every row is an object. -/
def first (q : Query) (t : JoinTree) : Query :=
  if t.fansOut || q.limit.isSome then q else { q with limit := some 1 }

/-- What is not found when a query matches nothing. -/
def description (q : Query) : String :=
  "no " ++ q.root.tableName?.getD "row" ++ " matched the query"

/-- The first object that a query matches. -/
def get (q : Query) (db : Connection σ) : Session σ Record := do
  let tree ← Session.ofExcept (JoinTree.compile .objects "" q)
  match ← (q.first tree).load db with
  | r :: _ => pure r
  | [] => throw (.recordNotFound q.description)

/-- The number that a row of a count holds. -/
def counted (row : Row) : Int64 := ((row.get? Counting.name).bind Value.asInt?).getD 0

/-- The number of objects that a query matches. -/
def count (q : Query) (db : Connection σ) : Session σ Nat := do
  let counting ← Session.ofExcept (q.compileCount db.dialect)
  let cursor ← Cursor.start db "count" (.count counting) [.count]
  let ((), n) ← Session.withState (0 : Int64)
    (cursor.forEach (db.beside Int64) fun row => modify fun (_, s) => (counted row, s))
  pure n.toInt.toNat

/-- The objects that a query matches, one row at a time. A join to many rows spreads an object over
rows that do not come together, so there must be none. -/
def loadCursor (q : Query) (db : Connection σ) : Session σ (Cursor Record) := do
  let c ← Session.ofExcept (q.compile db.dialect)
  if c.tree.fansOut then throw (.invalidQuery .toManyStream)
  let cursor ← Cursor.start db "load_cursor" c.command c.columns
  pure (cursor.mapM fun row => .ok (c.record? row))

end QueryOf

end RecordGraph
