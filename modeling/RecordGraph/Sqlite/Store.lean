import RecordGraph.Connection.Basic
import RecordGraph.Sqlite.StoredTable
import RecordGraph.Version

/-!
# Stores

A `Store` is a database of SQLite in memory: tables with their rows, and the tables as they were
when the open transaction began. A statement that is refused changes nothing.

The store carries out every command but selections that join, filter or calculate: it reads whole
tables, sorts them by columns, cuts out a page and counts rows.

* `Store.carryOut`: a command that writes.
* `Store.answer`: a command that reads.
* `Store.connection`: a store as a connection.
-/
namespace RecordGraph.Sqlite

structure Store where
  tables : List StoredTable
  /-- The number of the row that was inserted last. -/
  lastNumber : Int
  /-- The tables before the open transaction. -/
  before : Option (List StoredTable)
  versions : Versions
  /-- Keys made up so far. -/
  drawn : Nat

namespace Store

/-- What a connection to a store calls itself. -/
def name : String := "sqlite.rusqlite"

def empty (versions : Versions) : Store := ⟨[], 0, none, versions, 0⟩

def find? (tables : List StoredTable) (name : String) : Option StoredTable :=
  tables.find? (sameName name ·.name)

def require (tables : List StoredTable) (name : String) : Except Refusal StoredTable :=
  match find? tables name with
  | some t => .ok t
  | none => .error (.noTable name)

/-- What a foreign key of a row refers to is there. -/
def refersWell (tables : List StoredTable) (t : StoredTable) (row : StoredRow) (key : ForeignKey) :
    Bool :=
  let v := t.cell row.cells key.column
  v.isNull || (find? tables key.table).elim false (·.hasKey key.target v)

/-- A new row refers to itself. Its own cell is compared with the key as it is, unless that is the
number of the row. -/
def refersToItself (t : StoredTable) (row : StoredRow) (key : ForeignKey) : Bool :=
  let v := t.cell row.cells key.column
  let v := if t.isNumber key.target then t.sought? key.target v else some v
  sameName key.table t.name && v.elim false (·.matching (t.cell row.cells key.target))

/-- No foreign key refers to nothing. -/
def consistent (tables : List StoredTable) : Bool :=
  tables.all fun t => t.rows.all fun row => t.foreignKeys.all (refersWell tables t row)

/-- The store with other tables, which have to be consistent. -/
def withTables (s : Store) (tables : List StoredTable) : Except Refusal Store :=
  if consistent tables then .ok { s with tables } else .error .foreignKey

/-- The tables with another one in the place of a name. -/
def replaced (s : Store) (name : String) (t : StoredTable) : List StoredTable :=
  s.tables.map fun other => if sameName name other.name then t else other

/-- One table changed. -/
def change (s : Store) (name : String) (f : StoredTable → Except Refusal (StoredTable × α)) :
    Except Refusal (Store × α) := do
  let t ← require s.tables name
  let (t, a) ← f t
  let s ← s.withTables (s.replaced name t)
  .ok (s, a)

/-- A table is created, unless there is one of this name. -/
def create (s : Store) (t : StoredTable) : Except Refusal Store :=
  match StoredTable.repeated? t.columns, find? s.tables t.name with
  | _, some _ => .ok s
  | some c, none => .error (.duplicateColumn c)
  | none, none => .ok { s with tables := s.tables ++ [t] }

/-- A foreign key refers to the keys of a table that is there. -/
def checkForeignKey (tables : List StoredTable) (t : StoredTable) (key : ForeignKey) :
    Except Refusal Unit :=
  match find? tables key.table with
  | none => .error (.noTable ("main." ++ key.table))
  | some target => if target.isKey key.target then .ok () else .error (.noKey t.name key.table)

/-- A row is added. What it refers to is looked up before it takes its place. -/
def insertInto (s : Store) (name : String) (set : List Assignment) :
    Except Refusal (Store × Nat) := do
  let t ← require s.tables name
  t.foreignKeys.forM (checkForeignKey s.tables t)
  let row ← t.newRow set
  if t.foreignKeys.all fun key => refersWell s.tables t row key || refersToItself t row key then
    .ok ({ s with tables := s.replaced name (t.place row), lastNumber := row.number }, 1)
  else .error .foreignKey

def deleteFrom (s : Store) (name : String) (guard : List Assignment) :
    Except Refusal (Store × Nat) :=
  s.change name fun t => .ok (t.delete guard)

def assignment (f : Field) : Assignment := (f.column.name, .ofValue f.value)

/-- A command that writes, and the number of rows that it touches. -/
def carryOut (s : Store) : Command → Except Refusal (Store × Nat)
  | .insert table fields _ => s.insertInto table.name (fields.map assignment)
  | .update table set guard =>
    s.change table.name (·.update (set.map assignment) (guard.map assignment))
  | .delete table guard => s.deleteFrom table.name (guard.map assignment)
  | .unlinkAll m key => s.deleteFrom m.association [(m.ownColumn, .ofValue key)]
  | .link m key target =>
    s.insertInto m.association [(m.ownColumn, .ofValue key), (m.targetColumn, .ofValue target)]
  | .createTable table => do
    let s ← s.create (.ofTable table)
    .ok (s, 0)
  | .createAssociation association leftKey rightKey => do
    let s ← s.create (.ofAssociation association leftKey rightKey)
    .ok (s, 0)
  | .dropTable name => do
    let s ← s.withTables (s.tables.filter fun t => !sameName name t.name)
    .ok (s, 0)
  | .begin =>
    if s.before.isSome then .error .nestedTransaction
    else .ok ({ s with before := some s.tables }, 0)
  | .commit =>
    if s.before.isSome then .ok ({ s with before := none }, 0)
    else .error (.noTransaction "commit")
  | .rollback => match s.before with
    | some tables => .ok ({ s with tables, before := none }, 0)
    | none => .error (.noTransaction "rollback")
  | .select _ | .count _ => .error .unsupported

/-- A selected or sorted expression that is a column. -/
def column : Expr → Except Refusal String
  | .column ref => .ok ref.column
  | _ => .error .unsupported

/-- The order of two rows by the columns to sort by. -/
def compareRows (t : StoredTable) : List (String × Bool) → StoredRow → StoredRow → Ordering
  | [], _, _ => .eq
  | (c, descending) :: rest, a, b =>
    let order := (t.cell a.cells c).compare (t.cell b.cells c)
    (if descending then order.swap else order).then (compareRows t rest a b)

/-- The tables that a selection reads are there; the first of them. -/
def source (s : Store) (f : From) : Except Refusal StoredTable := do
  let t ← require s.tables f.table
  f.joins.forM fun j => do
    let _ ← require s.tables j.table
  .ok t

/-- A selection that joins, filters, groups or counts nothing. -/
def isPlain (q : Select) : Bool :=
  !q.distinct && q.source.joins.isEmpty && q.conditions.isEmpty && q.groupBys.isEmpty
    && q.having.isEmpty

/-- The rows of a page. -/
def page (limit offset : Option UInt64) (rows : List α) : List α :=
  let rest := rows.drop (offset.elim 0 (·.toNat))
  limit.elim rest fun n => rest.take n.toNat

/-- The rows of a plain selection. -/
def rowsOf (s : Store) (q : Select) : Except Refusal (List (List Value)) := do
  let t ← s.source q.source
  if !isPlain q then .error .unsupported
  else
    let columns ← q.items.mapM fun i => column i.expr
    let order ← q.orderBys.mapM fun o => do
      let c ← column o.expr
      .ok (c, o.descending)
    let sorted := t.rows.mergeSort fun a b => (compareRows t order a b).isLE
    .ok ((page q.limit q.offset sorted).map fun r => columns.map fun c => (t.cell r.cells c).value)

/-- The number of rows that a statement counts. -/
def countOf (s : Store) : Counting → Except Refusal Nat
  | .derived q => do
    let rows ← s.rowsOf q
    .ok rows.length
  | .direct q => do
    let t ← s.source q.source
    match isPlain q, q.items with
    | true, [⟨.apply .countAll [], _⟩] => .ok t.rows.length
    | _, _ => .error .unsupported

/-- The rows that a command reads. -/
def answer (s : Store) : Command → Except Refusal (List (List Value))
  | .select q => s.rowsOf q
  | .count c => do
    let n ← s.countOf c
    .ok [[.int (Int64.ofInt n)]]
  | _ => .error .unsupported

def execute (c : Command) : Session Store Nat := do
  let s ← get
  match s.carryOut c with
  | .ok (s, touched) => do
    set s
    pure touched
  | .error r => throw (r.error "execute" (c.statement .sqlite))

def query (c : Command) : Session Store Rows := do
  let s ← get
  match s.answer c with
  | .ok rows => pure ⟨rows.map fun row => .ok (some row), .ok ()⟩
  | .error r => throw (r.error "query" (c.statement .sqlite))

def draw : StateM Store (BitVec 128) := modifyGet fun s =>
  (Connection.madeUpKey (s.drawn + 1), { s with drawn := s.drawn + 1 })

/-- A store as a connection, at a time that stands still. -/
def connection (now : Int64) : Connection Store where
  dialect := .sqlite
  execute := execute
  query := query
  release := pure ()
  lastInsertId := do
    let s ← get
    pure (some (.int (Int64.ofInt s.lastNumber)))
  nextVersion previous := modifyGet fun s =>
    let (v, versions) := s.versions.next now previous
    (v, { s with versions })
  freshUuid := do
    let n ← draw
    pure ⟨n⟩
  freshUlid := draw

end Store

end RecordGraph.Sqlite
