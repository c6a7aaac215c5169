import RecordGraph.Connection.Basic
import RecordGraph.JoinTree.Basic

/-!
# Cursors

A `Cursor` reads the items of a result one by one and closes it once. Rows are decoded as they are
read, each value by the receiver of its column.

* `drive`: feeds every item to an action, then closes; a failure to close is kept beside an
  earlier failure.
-/
namespace RecordGraph

/-- A column of a result. -/
structure ResultColumn where
  /-- The name in the result. -/
  label : String
  /-- What its values are decoded into; raw values pass where there is none. -/
  receiver : Option Receiver
  deriving DecidableEq

namespace ResultColumn

/-- The only column of a count. -/
def count : ResultColumn := ⟨Counting.name, some .int64⟩

def ofOutput : Output → ResultColumn
  | .column _ c => ⟨c.label, some c.column.receiver⟩
  | .calculation _ c => ⟨c.label, none⟩

/-- The columns of a query's result. -/
def ofTree (t : JoinTree) : List ResultColumn := t.outputs.map ofOutput

def decode (c : ResultColumn) (raw : Value) : Except Error Value :=
  match c.receiver with
  | some receiver => receiver.decode c.label raw
  | none => .ok raw

end ResultColumn

/-- A decoded row: the values with the names of their columns. -/
structure Row where
  cells : List (String × Value)

namespace Row

/-- The value of the first column with a name. -/
def get? (r : Row) (label : String) : Option Value := r.cells.lookup label

def values (r : Row) : List Value := r.cells.map (·.2)

/-- The error of a row with more or fewer values than there are columns. -/
def widthError (operation : String) (s : Statement) (width expected : Nat) : Error :=
  .query operation s.sql s.args
    ("row has " ++ toString width ++ " values, expected " ++ toString expected)

/-- A raw row, decoded. -/
def decode (operation : String) (s : Statement) (columns : List ResultColumn) (raw : List Value) :
    Except Error Row :=
  if raw.length ≠ columns.length then .error (widthError operation s raw.length columns.length)
  else do
    let values ← (columns.zip raw).mapM fun (c, v) => c.decode v
    .ok ⟨(columns.map (·.label)).zip values⟩

end Row

namespace Feed

/-- The feed with every item passed on to `f`. -/
def mapM (f : α → Except Error (Option β)) (feed : Feed α) : Feed β :=
  feed.map fun
    | .ok (some a) => f a
    | .ok none => .ok none
    | .error e => .error e

/-- Feeds items to an action, up to the end or the first failure. -/
def each (f : α → Session σ Unit) : Feed α → Session σ Unit
  | [] => pure ()
  | .error e :: _ => throw e
  | .ok none :: _ => pure ()
  | .ok (some a) :: rest => do
    f a
    each f rest

/-- The items up to the end or the first failure, and what is left to read. -/
def readAll : Feed α → List α × Except Error Unit × Feed α
  | [] => ([], .ok (), [])
  | .error e :: rest => ([], .error e, rest)
  | .ok none :: rest => ([], .ok (), rest)
  | .ok (some a) :: rest =>
    let (items, outcome, rest) := readAll rest
    (a :: items, outcome, rest)

end Feed

/-- Feeds items to an action, then closes, whatever happened. -/
def drive (feed : Feed α) (close : Session σ Unit) (f : α → Session σ Unit) : Session σ Unit := do
  let outcome ← (feed.each f).attempt
  let closed ← close.attempt
  Session.ofExcept (Error.combine outcome closed)

/-- The result of a query, as it is read. -/
structure Cursor (α : Type) where
  feed : Feed α
  closing : Except Error Unit
  closed : Bool

namespace Cursor

/-- Sends a query. `operation` names it in errors. -/
def start (db : Connection σ) (operation : String) (c : Command) (columns : List ResultColumn) :
    Session σ (Cursor Row) := do
  let rows ← db.query c
  let statement := c.statement db.dialect
  let decode (raw : List Value) := (Row.decode operation statement columns raw).map some
  let feed := Feed.mapM decode rows.reads
  pure ⟨feed, rows.closing, false⟩

/-- The cursor with every item passed on to `f`. -/
def mapM (f : α → Except Error (Option β)) (c : Cursor α) : Cursor β :=
  ⟨Feed.mapM f c.feed, c.closing, c.closed⟩

/-- The next item; none at the end, or after closing. -/
def next (c : Cursor α) : Except Error (Option α) × Cursor α :=
  if c.closed then (.ok none, c)
  else match c.feed with
    | [] => (.ok none, c)
    | read :: rest => (read, { c with feed := rest })

/-- Closes the result, once. -/
def close (db : Connection σ) (c : Cursor α) : StateM σ (Except Error Unit × Cursor α) :=
  if c.closed then pure (.ok (), c)
  else do
    let outcome ← (db.close c.closing).run
    pure (outcome, { c with closed := true })

/-- Drops the cursor; a failure to close goes unnoticed. -/
def drop (db : Connection σ) (c : Cursor α) : StateM σ Unit := do
  let _ ← c.close db

/-- The items up to the end or the first failure, and the cursor behind them. -/
def readAll (c : Cursor α) : List α × Except Error Unit × Cursor α :=
  if c.closed then ([], .ok (), c)
  else
    let (items, outcome, rest) := c.feed.readAll
    (items, outcome, { c with feed := rest })

/-- Feeds every item to an action, then closes. -/
def forEach (db : Connection σ) (c : Cursor α) (f : α → Session σ Unit) : Session σ Unit :=
  let close : Session σ Unit := do
    let (outcome, _) ← Session.lift (c.close db)
    Session.ofExcept outcome
  drive (if c.closed then [] else c.feed) close f

end Cursor

end RecordGraph
