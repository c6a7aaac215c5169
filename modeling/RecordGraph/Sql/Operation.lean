import RecordGraph.Error
import RecordGraph.Sql.Basic

/-!
# Operators in SQL

Every dialect writes operators the `standard` way, except for the few that it writes its own way.
Operand counts are checked before anything is written.

* `Op.standard`: the operator over fragments.
* `Dialect.operator`: the same as a dialect writes it.
* `Dialect.operation`: with the operand count checked.
* `Dialect.limitClause`: the end of a statement that takes only some rows.
-/
namespace RecordGraph

namespace Op

/-- `a op b` -/
def infixed (operator : String) (a b : Sql) : Sql := a.pushRaw (" " ++ operator ++ " ") ++ b

/-- `(a op b op c)`; a single operand stands alone. -/
def chained (operator : String) : List Sql → Sql
  | [s] => s
  | args => (Sql.join (" " ++ operator ++ " ") args).parens

/-- `a IN (b, c)`; an empty list is a constant. -/
def membership (keyword whenEmpty : String) : List Sql → Sql
  | subject :: item :: items =>
    subject.pushRaw keyword ++ (Sql.join ", " (item :: items)).parens
  | _ => Sql.raw whenEmpty

/-- The operator as most dialects write it; `escape` is the literal of the escape character. -/
def standard (escape : String) (op : Op) (args : List Sql) : Sql :=
  let a := args.getD 0 Sql.empty
  let b := args.getD 1 Sql.empty
  let c := args.getD 2 Sql.empty
  match op with
  | .eq => infixed "=" a b
  | .ne => infixed "<>" a b
  | .gt => infixed ">" a b
  | .ge => infixed ">=" a b
  | .lt => infixed "<" a b
  | .le => infixed "<=" a b
  | .like => infixed "LIKE" a b
  | .startsWith | .endsWith | .contains => (infixed "LIKE" a b).pushRaw (" ESCAPE " ++ escape)
  | .isIn => membership " IN " "1 = 0" args
  | .notIn => membership " NOT IN " "1 = 1" args
  | .isNull => a.pushRaw " IS NULL"
  | .isNotNull => a.pushRaw " IS NOT NULL"
  | .between => (a.pushRaw " BETWEEN " ++ b).pushRaw " AND " ++ c
  | .and => if args.isEmpty then Sql.raw "1 = 1" else chained "AND" args
  | .or => if args.isEmpty then Sql.raw "1 = 0" else chained "OR" args
  | .xor => (infixed "<>" a b).parens
  | .not => Sql.raw "NOT " ++ a.parens
  | .add => (infixed "+" a b).parens
  | .sub => (infixed "-" a b).parens
  | .mul => (infixed "*" a b).parens
  | .div => (infixed "/" a b).parens
  | .mod => (infixed "%" a b).parens
  | .neg => Sql.raw "(-" ++ a ++ Sql.raw ")"
  | .concat => chained "||" args
  | .lower => Sql.func "LOWER" args
  | .upper => Sql.func "UPPER" args
  | .count => Sql.func "COUNT" args
  | .countAll => Sql.raw "COUNT(*)"
  | .countDistinct => Sql.raw "COUNT(DISTINCT " ++ a ++ Sql.raw ")"
  | .sum => Sql.func "SUM" args
  | .min => Sql.func "MIN" args
  | .max => Sql.func "MAX" args
  | .avg => Sql.func "AVG" args
  | .dateAddSeconds => ((a.pushRaw " + " ++ b.parens).pushRaw " * INTERVAL '1 second'").parens
  | .now => Sql.raw "CURRENT_TIMESTAMP"
  | .coalesce => Sql.func "COALESCE" args

/-- The error of a wrong operand count. -/
def checkCount (op : Op) (count : Nat) : Except Error Unit :=
  if op.takes count then .ok () else .error (.invalidQuery (.operandCount op count))

/-- The standard way, with the operand count checked. -/
def standardOperation (escape : String) (op : Op) (args : List Sql) : Except Error Sql := do
  checkCount op args.length
  .ok (standard escape op args)

end Op

namespace Dialect

/-- The format of times that SQLite computes. Where stored times have six digits, it has three. -/
def sqliteTimeFormat : String := "'%Y-%m-%dT%H:%M:%fZ'"

/-- The operator as the dialect writes it. -/
def operator (d : Dialect) (op : Op) (args : List Sql) : Sql :=
  let a := args.getD 0 Sql.empty
  let b := args.getD 1 Sql.empty
  match d, op with
  | .sqlite, .dateAddSeconds =>
    (((Sql.raw ("strftime(" ++ sqliteTimeFormat ++ ", ")) ++ a).pushRaw ", " ++ b.parens).pushRaw
      " || ' seconds')"
  | .sqlite, .now => Sql.raw ("strftime(" ++ sqliteTimeFormat ++ ", 'now')")
  | .postgresql, .dateAddSeconds =>
    ((a.pushRaw " + make_interval(secs => " ++ b).pushRaw ")").parens
  | .mysql, .concat => Sql.func "CONCAT" args
  | .mysql, .xor => (Sql.join " XOR " args).parens
  | .mysql, .dateAddSeconds =>
    ((Sql.raw "DATE_ADD(" ++ a).pushRaw ", INTERVAL " ++ b).pushRaw " SECOND)"
  | d, op => op.standard d.likeEscape args

/-- An operand count that the dialect lets pass. SQLite's current time leaves operands out without
counting them. -/
def takes (d : Dialect) (op : Op) (count : Nat) : Bool :=
  (d == .sqlite && op == .now) || op.takes count

/-- The error of an operand count that the dialect does not let pass. -/
def checkCount (d : Dialect) (op : Op) (count : Nat) : Except Error Unit :=
  if d.takes op count then .ok () else .error (.invalidQuery (.operandCount op count))

/-- The operator as the dialect writes it, with the operand count checked. -/
def operation (d : Dialect) (op : Op) (args : List Sql) : Except Error Sql := do
  d.checkCount op args.length
  .ok (d.operator op args)

/-- The end of a statement that takes at most `limit` rows after the first `offset` ones. SQLite
and MySQL know no offset without a limit and get a limit that takes all rows. -/
def limitClause (d : Dialect) (limit offset : Option UInt64) : Sql :=
  let number (n : UInt64) : String := toString n.toNat
  match d, limit, offset with
  | _, none, none => Sql.empty
  | .sqlite, some l, none | .mysql, some l, none => Sql.raw (" LIMIT " ++ number l)
  | .sqlite, none, some o => Sql.raw (" LIMIT -1 OFFSET " ++ number o)
  | .mysql, none, some o => Sql.raw (" LIMIT 18446744073709551615 OFFSET " ++ number o)
  | .sqlite, some l, some o | .mysql, some l, some o =>
    Sql.raw (" LIMIT " ++ number l ++ " OFFSET " ++ number o)
  | _, some l, none => Sql.raw (" LIMIT " ++ number l)
  | _, none, some o => Sql.raw (" OFFSET " ++ number o)
  | _, some l, some o => Sql.raw (" LIMIT " ++ number l) ++ Sql.raw (" OFFSET " ++ number o)

end Dialect

end RecordGraph
