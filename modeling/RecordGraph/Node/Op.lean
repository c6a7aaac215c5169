/-!
# Operators

The operators of expressions, with the operand counts they take.

* `Op.arity`: least and greatest operand count.
* `Op.takes`: a count within them.
-/
namespace RecordGraph

/-- An operator of an expression. -/
inductive Op where
  | eq | ne | gt | ge | lt | le | like | isIn | notIn | isNull | isNotNull | between
  | and | or | xor | not
  | add | sub | mul | div | mod | neg
  | concat | startsWith | endsWith | contains | lower | upper
  | count | countAll | countDistinct | sum | min | max | avg
  | dateAddSeconds | now | coalesce
  deriving DecidableEq, Repr, Inhabited

namespace Op

/-- Every operator, in the order of their binary codes. -/
def all : List Op :=
  [.eq, .ne, .gt, .ge, .lt, .le, .like, .isIn, .notIn, .isNull, .isNotNull, .between,
    .and, .or, .xor, .not,
    .add, .sub, .mul, .div, .mod, .neg,
    .concat, .startsWith, .endsWith, .contains, .lower, .upper,
    .count, .countAll, .countDistinct, .sum, .min, .max, .avg,
    .dateAddSeconds, .now, .coalesce]

def name : Op → String
  | .eq => "Eq"
  | .ne => "Ne"
  | .gt => "Gt"
  | .ge => "Ge"
  | .lt => "Lt"
  | .le => "Le"
  | .like => "Like"
  | .isIn => "In"
  | .notIn => "NotIn"
  | .isNull => "IsNull"
  | .isNotNull => "IsNotNull"
  | .between => "Between"
  | .and => "And"
  | .or => "Or"
  | .xor => "Xor"
  | .not => "Not"
  | .add => "Add"
  | .sub => "Sub"
  | .mul => "Mul"
  | .div => "Div"
  | .mod => "Mod"
  | .neg => "Neg"
  | .concat => "Concat"
  | .startsWith => "StartsWith"
  | .endsWith => "EndsWith"
  | .contains => "Contains"
  | .lower => "Lower"
  | .upper => "Upper"
  | .count => "Count"
  | .countAll => "CountAll"
  | .countDistinct => "CountDistinct"
  | .sum => "Sum"
  | .min => "Min"
  | .max => "Max"
  | .avg => "Avg"
  | .dateAddSeconds => "DateAddSeconds"
  | .now => "Now"
  | .coalesce => "Coalesce"

def ofName? (s : String) : Option Op := all.find? (·.name == s)

/-- The name of an operator where expressions are written as functions. -/
def functionName : Op → String
  | .eq => "eq"
  | .ne => "ne"
  | .gt => "gt"
  | .ge => "ge"
  | .lt => "lt"
  | .le => "le"
  | .like => "like"
  | .isIn => "in_list"
  | .notIn => "not_in"
  | .isNull => "is_null"
  | .isNotNull => "is_not_null"
  | .between => "between"
  | .and => "and"
  | .or => "or"
  | .xor => "xor"
  | .not => "not"
  | .add => "add"
  | .sub => "sub"
  | .mul => "mul"
  | .div => "div"
  | .mod => "modulo"
  | .neg => "neg"
  | .concat => "concat"
  | .startsWith => "starts_with"
  | .endsWith => "ends_with"
  | .contains => "contains"
  | .lower => "lower"
  | .upper => "upper"
  | .count => "count"
  | .countAll => "count_all"
  | .countDistinct => "count_distinct"
  | .sum => "sum"
  | .min => "min"
  | .max => "max"
  | .avg => "avg"
  | .dateAddSeconds => "date_add_seconds"
  | .now => "now"
  | .coalesce => "coalesce"

def ofFunctionName? (s : String) : Option Op := all.find? (·.functionName == s)

/-- The least and the greatest operand count; `none` is unbounded. -/
def arity : Op → Nat × Option Nat
  | .now | .countAll => (0, some 0)
  | .isNull | .isNotNull | .not | .neg | .lower | .upper | .count | .countDistinct | .sum | .min
  | .max | .avg => (1, some 1)
  | .eq | .ne | .gt | .ge | .lt | .le | .like | .xor | .add | .sub | .mul | .div | .mod
  | .startsWith | .endsWith | .contains | .dateAddSeconds => (2, some 2)
  | .between => (3, some 3)
  | .isIn | .notIn | .concat | .coalesce => (1, none)
  | .and | .or => (0, none)

/-- A count of operands that the operator takes. -/
def takes (op : Op) (n : Nat) : Bool :=
  op.arity.1 ≤ n && (match op.arity.2 with
    | some most => n ≤ most
    | none => true)

/-- Operators that summarize a group of rows. -/
def isAggregate : Op → Bool
  | .count | .countAll | .countDistinct | .sum | .min | .max | .avg => true
  | _ => false

end Op

end RecordGraph
