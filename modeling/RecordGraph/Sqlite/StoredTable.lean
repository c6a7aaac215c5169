import RecordGraph.Schema.Table
import RecordGraph.Sqlite.Affinity
import RecordGraph.Sqlite.Refusal

/-!
# Stored tables

A table of SQLite as a list of rows in the order of their numbers. A column may show the number of
the row; a table may promise that no number is ever given twice.

A row is refused for a number that is none, then for a null, then for a value that another row has.
Of the rules on unique values the one declared last is checked first, but the number of the row
before them all.

* `StoredTable.newRow`, `StoredTable.update`, `StoredTable.delete`.
-/
namespace RecordGraph.Sqlite

/-- Names are the same whatever the case of their ASCII letters. -/
def sameName (a b : String) : Bool := a.toList.map Char.toLower == b.toList.map Char.toLower

structure StoredColumn where
  name : String
  affinity : Affinity
  /-- Nulls are refused. -/
  required : Bool

/-- A column whose values are keys of a table. -/
structure ForeignKey where
  column : String
  table : String
  target : String

/-- Where the number of a row is found. -/
inductive Numbering where
  | hidden
  | shown (column : String)
  /-- In a column, and numbers are never given again. -/
  | lasting (column : String)

structure StoredRow where
  number : Int
  cells : List Stored

structure StoredTable where
  name : String
  columns : List StoredColumn
  numbering : Numbering
  /-- Lists of columns in which no two rows agree. -/
  uniques : List (List String)
  foreignKeys : List ForeignKey
  rows : List StoredRow
  /-- The greatest number that a row ever had, or 0. -/
  greatest : Int

/-- A column with the value that it is given or compared with. -/
abbrev Assignment := String × Stored

/-- The column that shows the numbers of the rows. -/
def Numbering.column? : Numbering → Option String
  | .hidden => none
  | .shown c | .lasting c => some c

namespace StoredTable

/-- The rules on unique columns; that on the number of the row comes last. -/
def uniquesOf (number : Option String) (declared : List String) : List (List String) :=
  match number with
  | none => declared.map ([·])
  | some n => (declared.filter (· != n) ++ [n]).map ([·])

/-- An integer key numbers the rows. -/
def numberingOf (key : Column) : Numbering :=
  if key.receiver = .autoPrimaryKey then .lasting key.name
  else if Affinity.ofReceiver key.receiver = .integer then .shown key.name
  else .hidden

/-- A table of a schema without rows. -/
def ofTable (t : Table) : StoredTable where
  name := t.name
  columns := t.columns.map fun c =>
    ⟨c.name, .ofReceiver c.receiver, !c.primaryKey && !c.nullable⟩
  numbering := numberingOf t.primaryKey
  uniques := uniquesOf (numberingOf t.primaryKey).column?
    ((t.columns.filter fun c => c.primaryKey || c.unique).map (·.name))
  foreignKeys := t.references.map fun r => ⟨r.column, r.target, r.targetColumn⟩
  rows := []
  greatest := 0

/-- An association table without rows. -/
def ofAssociation (a : Association) (leftKey rightKey : Column) : StoredTable where
  name := a.name
  columns := [⟨a.leftColumn, .ofReceiver leftKey.receiver, true⟩,
    ⟨a.rightColumn, .ofReceiver rightKey.receiver, true⟩]
  numbering := .hidden
  uniques := [[a.leftColumn, a.rightColumn]]
  foreignKeys := [⟨a.leftColumn, a.leftTable, leftKey.name⟩,
    ⟨a.rightColumn, a.rightTable, rightKey.name⟩]
  rows := []
  greatest := 0

/-- The first column name that comes twice. -/
def repeated? : List StoredColumn → Option String
  | [] => none
  | c :: rest => (rest.find? (sameName c.name ·.name)).map (·.name) <|> repeated? rest

def affinityOf (t : StoredTable) (column : String) : Affinity :=
  (t.columns.find? (sameName column ·.name)).elim .blob (·.affinity)

/-- What a row holds in a column. -/
def cell (t : StoredTable) (cells : List Stored) (column : String) : Stored :=
  ((t.columns.zip cells).find? (sameName column ·.1.name)).elim .null (·.2)

/-- The cells of a row after new values are given to some columns. -/
def assigned (t : StoredTable) (set : List Assignment) (cells : List Stored) : List Stored :=
  (t.columns.zip cells).map fun (c, old) =>
    match set.find? (sameName c.name ·.1) with
    | some (_, v) => c.affinity.keep v
    | none => old

/-- The cells of a row that nothing is given to. -/
def blank (t : StoredTable) : List Stored := t.columns.map fun _ => .null

/-- The least positive number that no row has. -/
def freeNumber (t : StoredTable) : Int :=
  let candidates : List Int := (List.range (t.rows.length + 1)).map fun (n : Nat) => (n : Int) + 1
  (candidates.find? fun n => !t.rows.any (·.number == n)).getD 1

/-- The greatest number that a row can have. -/
def greatestNumber : Int := 0x7fffffffffffffff

/-- The number of the next row: one more than the last. When that is too great, a lasting numbering
has come to its end, and any other goes back to a free number. -/
def nextNumber (t : StoredTable) : Except Refusal Int :=
  let next := t.rows.getLast?.elim 1 (·.number + 1)
  match t.numbering with
  | .lasting _ =>
    let next := max next (t.greatest + 1)
    if next ≤ greatestNumber then .ok next else .error .full
  | _ => .ok (if next ≤ greatestNumber then next else t.freeNumber)

/-- The number that the cells of a new row ask for, else the next one. -/
def numberFor (t : StoredTable) (cells : List Stored) : Except Refusal Int :=
  match t.numbering.column? with
  | none => t.nextNumber
  | some c => match t.cell cells c with
    | .null => t.nextNumber
    | .integer i => .ok i.toInt
    | _ => .error .mismatch

/-- The cells with the number of the row among them. -/
def showing (t : StoredTable) (number : Int) (cells : List Stored) : List Stored :=
  match t.numbering.column? with
  | none => cells
  | some c => t.assigned [(c, .integer (Int64.ofInt number))] cells

/-- Two rows are equal in some columns. -/
def agree (t : StoredTable) (columns : List String) (a b : List Stored) : Bool :=
  columns.all fun c => (t.cell a c).matching (t.cell b c)

def checkRequired (t : StoredTable) (cells : List Stored) : Except Refusal Unit :=
  match (t.columns.zip cells).find? fun (c, v) => c.required && v.isNull with
  | some (c, _) => .error (.notNull t.name c.name)
  | none => .ok ()

def checkUnique (t : StoredTable) (cells : List Stored) : Except Refusal Unit :=
  match t.uniques.reverse.find? fun columns => t.rows.any (t.agree columns ·.cells cells) with
  | some columns => .error (.unique t.name columns)
  | none => .ok ()

/-- A row takes its place among the others. -/
def place (t : StoredTable) (row : StoredRow) : StoredTable :=
  { t with
    rows := t.rows.takeWhile (·.number < row.number) ++ row
      :: t.rows.dropWhile (·.number < row.number)
    greatest := max t.greatest row.number }

/-- A row for the table if it breaks no rule. -/
def accept (t : StoredTable) (number : Int) (cells : List Stored) : Except Refusal StoredRow := do
  let cells := t.showing number cells
  t.checkRequired cells
  t.checkUnique cells
  .ok ⟨number, cells⟩

/-- A new row for the table. -/
def newRow (t : StoredTable) (set : List Assignment) : Except Refusal StoredRow := do
  let cells := t.assigned set t.blank
  let number ← t.numberFor cells
  t.accept number cells

/-- The column shows the number of the row. -/
def isNumber (t : StoredTable) (column : String) : Bool :=
  t.numbering.column?.elim false (sameName column)

/-- No two rows agree in the column. -/
def isKey (t : StoredTable) (column : String) : Bool :=
  t.uniques.any fun columns => match columns with
    | [c] => sameName column c
    | _ => false

/-- A value as a column compares it: numbers with numbers, texts with texts. -/
def comparand : Affinity → Stored → Stored
  | .integer, v | .real, v => Affinity.keepNumber v
  | .text, v => Affinity.keepText v
  | .blob, v => v

/-- What a key is turned into before rows are looked up by it. The number of a row is found by an
integer only. -/
def sought? (t : StoredTable) (column : String) (v : Stored) : Option Stored :=
  match comparand (t.affinityOf column) v with
  | .integer i => some (.integer i)
  | v => if t.isNumber column then none else some v

/-- There is a row with the key. -/
def hasKey (t : StoredTable) (column : String) (v : Stored) : Bool :=
  (t.sought? column v).elim false fun v =>
    t.rows.any fun row => v.matching (t.cell row.cells column)

/-- A row is equal to the guard in each of its columns. -/
def meets (t : StoredTable) (guard : List Assignment) (row : StoredRow) : Bool :=
  guard.all fun (c, v) => (t.cell row.cells c).matching (comparand (t.affinityOf c) v)

/-- New values for one row. -/
def replace (set : List Assignment) (t : StoredTable) (row : StoredRow) :
    Except Refusal StoredTable := do
  let others := { t with rows := t.rows.filter (·.number != row.number) }
  let cells := t.assigned set row.cells
  let number ← if t.numbering.column?.isSome then others.numberFor cells else .ok row.number
  let row ← others.accept number cells
  .ok (others.place row)

/-- New values for the rows that meet a guard, and their number. -/
def update (t : StoredTable) (set guard : List Assignment) :
    Except Refusal (StoredTable × Nat) := do
  let rows := t.rows.filter (t.meets guard)
  let t ← rows.foldlM (replace set) t
  .ok (t, rows.length)

/-- No row that meets a guard is left; the number of those that did. -/
def delete (t : StoredTable) (guard : List Assignment) : StoredTable × Nat :=
  ({ t with rows := t.rows.filter (!t.meets guard ·) }, (t.rows.filter (t.meets guard)).length)

end StoredTable

end RecordGraph.Sqlite
