import RecordGraph.Sql.Operation

/-!
# Selections

A `Select` is a SELECT statement as data: the tables it reads, each under a label of its own, and
expressions over their columns. `Select.sql` writes it for a dialect.

An expression is written without parentheses around its operands, except where an operator or
`Expr.parens` brings its own.
-/
namespace RecordGraph

/-- A column of a table in the FROM clause, by the table's label. -/
structure ColumnRef where
  label : String
  column : String
  deriving DecidableEq

/-- `LEFT JOIN table AS label ON own = other` -/
structure JoinClause where
  table : String
  label : String
  own : ColumnRef
  other : ColumnRef
  deriving DecidableEq

/-- The tables that a selection reads. -/
structure From where
  table : String
  label : String
  joins : List JoinClause
  deriving DecidableEq

/-- A selected expression, under a name or under none. -/
structure SelectItem (ε : Type) where
  expr : ε
  name : Option String

/-- An expression to sort by. -/
structure SortItem (ε : Type) where
  expr : ε
  descending : Bool

/-- A selection over expressions of type `ε`. -/
structure SelectOf (ε : Type) where
  distinct : Bool
  items : List (SelectItem ε)
  source : From
  conditions : List ε
  groupBys : List ε
  having : List ε
  orderBys : List (SortItem ε)
  limit : Option UInt64
  offset : Option UInt64
  /-- Lock the rows that are read, where the dialect can. -/
  locked : Bool

/-- An expression over the tables of a selection. -/
inductive Expr where
  | column (ref : ColumnRef)
  | param (v : Value)
  | parens (e : Expr)
  | apply (op : Op) (args : List Expr)
  /-- The rows of a selection, or the one value in them. -/
  | rows (s : SelectOf Expr)

/-- A selection. -/
abbrev Select := SelectOf Expr

namespace JoinClause

def sql (j : JoinClause) : Sql :=
  (Sql.raw " LEFT JOIN " |>.pushIdent j.table |>.pushRaw " AS " |>.pushIdent j.label
    |>.pushRaw " ON ") ++ (Sql.qualified j.own.label j.own.column).pushRaw " = "
    ++ Sql.qualified j.other.label j.other.column

end JoinClause

namespace From

def sql (f : From) : Sql :=
  f.joins.foldl (fun s j => s ++ j.sql)
    (Sql.raw " FROM " |>.pushIdent f.table |>.pushRaw " AS " |>.pushIdent f.label)

end From

namespace Expr

/-- A clause over its parts; nothing where there are none. -/
def clause (keyword : String) (write : List Sql → Sql) (parts : List Sql) : Sql :=
  if parts.isEmpty then Sql.empty else Sql.raw keyword ++ write parts

/-- The keyword between a subject and the rows of a selection that it is looked for in. -/
def membershipKeyword? : Op → Option String
  | .isIn => some " IN "
  | .notIn => some " NOT IN "
  | _ => none

/-- An operator over fragments. The rows of a selection bring the parentheses of a list along. -/
def applied (d : Dialect) (op : Op) (lastIsRows : Bool) (args : List Sql) : Sql :=
  match membershipKeyword? op, lastIsRows, args with
  | some keyword, true, [subject, selection] => subject.pushRaw keyword ++ selection
  | _, _, _ => d.operator op args

/-- The last of the operands is a selection. -/
def endsInRows : List Expr → Bool
  | [.rows _] => true
  | [] | [_] => false
  | _ :: rest => endsInRows rest

mutual

/-- An expression in a dialect. -/
def sql (d : Dialect) : Expr → Sql
  | .column ref => Sql.qualified ref.label ref.column
  | .param v => Sql.param v
  | .parens e => (e.sql d).parens
  | .apply op args => applied d op (endsInRows args) (sqls d args)
  | .rows s => (selectSql d s).parens

def sqls (d : Dialect) : List Expr → List Sql
  | [] => []
  | e :: rest => e.sql d :: sqls d rest

def itemSqls (d : Dialect) : List (SelectItem Expr) → List Sql
  | [] => []
  | ⟨e, none⟩ :: rest => e.sql d :: itemSqls d rest
  | ⟨e, some name⟩ :: rest => (e.sql d).named name :: itemSqls d rest

def sortSqls (d : Dialect) : List (SortItem Expr) → List Sql
  | [] => []
  | ⟨e, descending⟩ :: rest =>
    (e.sql d).pushRaw (if descending then " DESC" else " ASC") :: sortSqls d rest

/-- A selection in a dialect. -/
def selectSql (d : Dialect) : SelectOf Expr → Sql
  | ⟨distinct, items, source, conditions, groupBys, having, orderBys, limit, offset, locked⟩ =>
    Sql.raw (if distinct then "SELECT DISTINCT " else "SELECT ")
      ++ Sql.join ", " (itemSqls d items)
      ++ source.sql
      ++ clause " WHERE " (d.operator .and) (sqls d conditions)
      ++ clause " GROUP BY " (Sql.join ", ") (sqls d groupBys)
      ++ clause " HAVING " (d.operator .and) (sqls d having)
      ++ clause " ORDER BY " (Sql.join ", ") (sortSqls d orderBys)
      ++ d.limitClause limit offset
      ++ (if locked && d.locksRows then Sql.raw " FOR UPDATE" else Sql.empty)

end

end Expr

/-- A selection in a dialect. -/
def SelectOf.sql (s : Select) (d : Dialect) : Sql := Expr.selectSql d s

/-- A statement that counts rows. -/
inductive Counting where
  /-- A selection of the count itself. -/
  | direct (s : Select)
  /-- The number of rows that a selection gives. -/
  | derived (s : Select)

namespace Counting

/-- The name of the count in the result. -/
def name : String := "count"

/-- The name of the selection whose rows are counted. -/
def derivedName : String := "counted"

def sql (c : Counting) (d : Dialect) : Sql :=
  match c with
  | .direct s => s.sql d
  | .derived s =>
    (Sql.raw "SELECT COUNT(*)").named name ++ Sql.raw " FROM " ++ (s.sql d).parens.named derivedName

end Counting

end RecordGraph
