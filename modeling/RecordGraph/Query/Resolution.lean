import RecordGraph.JoinTree.Basic
import RecordGraph.Sql.Select

/-!
# Queries as selections

Every node of a query is resolved against the joins of the query: a column to its table's label, a
relation to the key of its rows, a calculation to its expression in parentheses. A query inside an
expression gets joins of its own, whose labels carry its number; the numbers count the inner
queries in the order in which they are written, so one that is written twice gets two.

* `Query.select`: the selection of a query and its joins.
* `Query.counting`: the statement that counts the objects of the root.
-/
namespace RecordGraph

/-- An outcome that depends on the number of inner queries so far. -/
abbrev Emission := StateT Nat (Except Error)

/-- What the nodes of a query are resolved against. -/
structure Scope where
  tree : JoinTree
  /-- The expression of the calculation with a name, at a path. -/
  expand : Path → String → Emission Expr

/-- A node that waits for its scope. -/
abbrev Resolver := Scope → Emission Expr

/-- The nodes of a query, waiting for their scope. -/
structure Clauses where
  conditions : List Resolver
  groupBys : List Resolver
  having : List Resolver
  orderBys : List (SortItem Resolver)
  /-- The calculations by where they are declared, and by name. -/
  calculations : List ((Option Path × String) × Resolver)

/-- What becomes of an operator over two operands. -/
inductive PairForm where
  /-- A comparison with null is a test of the other operand. -/
  | nullTest (test : Op) (ofFirst : Bool)
  /-- A search for a text is a match with a pattern. -/
  | pattern (text : String)
  /-- The searched text is not a constant. -/
  | needsText
  | plain

namespace PairForm

/-- A text with the wildcards of patterns escaped. -/
def escaped : List Char → List Char
  | [] => []
  | c :: rest =>
    if c = '\\' || c = '%' || c = '_' then '\\' :: c :: escaped rest else c :: escaped rest

/-- The pattern by which an operator searches for a text. -/
def patternOf? (op : Op) (text : String) : Option String :=
  let escaped := String.ofList (escaped text.toList)
  match op with
  | .startsWith => some (escaped ++ "%")
  | .endsWith => some ("%" ++ escaped)
  | .contains => some ("%" ++ escaped ++ "%")
  | _ => none

/-- The null test that a comparison becomes. -/
def nullTest? : Op → Option Op
  | .eq => some .isNull
  | .ne => some .isNotNull
  | _ => none

def of (op : Op) (a b : Node) : PairForm :=
  match nullTest? op, b.isNullValue, a.isNullValue with
  | some test, true, _ => .nullTest test true
  | some test, false, true => .nullTest test false
  | _, _, _ =>
    match b with
    | .value (.text text) => match patternOf? op text with
      | some p => .pattern p
      | none => .plain
    | _ => if (patternOf? op "").isSome then .needsText else .plain

end PairForm

/-- The clauses that join an element to its parent. -/
def Element.joinClauses (parent e : Element) : List JoinClause :=
  let key : ColumnRef := ⟨e.label, e.table.primaryKey.name⟩
  let parentKey : ColumnRef := ⟨parent.label, parent.table.primaryKey.name⟩
  match e.relation with
  | .root => []
  | .reference r => [⟨e.table.name, e.label, key, ⟨parent.label, r.column⟩⟩]
  | .reverse r => [⟨e.table.name, e.label, ⟨e.label, r.column⟩, parentKey⟩]
  | .manyMany m =>
    let link := e.associationLabel
    [⟨m.association, link, ⟨link, m.ownColumn⟩, parentKey⟩,
      ⟨e.table.name, e.label, key, ⟨link, m.targetColumn⟩⟩]

/-- The tables of the joins. -/
def JoinTree.source (t : JoinTree) : From where
  table := t.root.table.name
  label := t.root.label
  joins := t.rest.flatMap fun e => match e.parent.bind t.element? with
    | some parent => parent.joinClauses e
    | none => []

namespace Clauses

/-- The expression of a calculation; within it, one expansion less is left. -/
def expand (c : Clauses) (tree : JoinTree) : Nat → Path → String → Emission Expr
  | 0, _, name => throw (.invalidQuery (.endlessCalculation name))
  | n + 1, path, name =>
    match c.calculations.lookup (some path, name) with
    | some resolve => resolve ⟨tree, c.expand tree n⟩
    | none => throw (.invalidQuery (.unknownCalculation name))

/-- The scope of a query. Expansions that go deeper than there are calculations never end. -/
def scope (c : Clauses) (tree : JoinTree) : Scope :=
  ⟨tree, c.expand tree c.calculations.length⟩

/-- The selected expression of an output. -/
def item (s : Scope) : Output → Emission (SelectItem Expr)
  | .column e c => pure ⟨.column ⟨e.label, c.column.name⟩, some c.label⟩
  | .calculation e c => do
    let expr ← s.expand e.path c.name
    pure ⟨expr, some c.label⟩

def sorts (c : Clauses) (s : Scope) : Emission (List (SortItem Expr)) :=
  c.orderBys.mapM fun sort => do
    let expr ← sort.expr s
    pure ⟨expr, sort.descending⟩

/-- The selection of a query over its joins. -/
def select (c : Clauses) (q : Query) (tree : JoinTree) : Emission Select := do
  let s := c.scope tree
  let items ← tree.outputs.mapM (item s)
  if items.isEmpty then throw (.invalidQuery (.selectsNothing tree.root.table.name))
  let conditions ← c.conditions.mapM (· s)
  let groupBys ← c.groupBys.mapM (· s)
  let having ← c.having.mapM (· s)
  let orderBys ← c.sorts s
  pure {
    distinct := q.distinct, items, source := tree.source, conditions, groupBys, having, orderBys
    limit := q.limit, offset := q.offset, locked := q.forUpdate }

/-- The selection of an inner query, which gives one column. -/
def inner (c : Clauses) (q : Query) : Emission Select := do
  let number ← get
  set (number + 1)
  let tree ← JoinTree.compile .selected ("s" ++ toString number) q
  let width := tree.outputs.length
  if width ≠ 1 then throw (.invalidQuery (.subqueryWidth tree.root.table.name width))
  c.select q tree

end Clauses

namespace Node

/-- A column of the element that a node leads to. -/
def found (s : Scope) (n : Node) (column : Table → String) : Emission Expr := do
  let e ← s.tree.elementFor n
  pure (.column ⟨e.label, column e.table⟩)

/-- An operator over resolved operands, if it takes so many. -/
def counted (d : Dialect) (op : Op) (args : List Expr) : Emission Expr := do
  d.checkCount op args.length
  pure (.apply op args)

mutual

/-- A node as an expression, once its scope is known. -/
def resolver (d : Dialect) : Node → Resolver
  | .column parent c => fun s => found s (.column parent c) fun _ => c.name
  | .calculated parent name => fun s => do
    let e ← s.tree.elementFor (.calculated parent name)
    let expr ← s.expand e.path name
    pure (.parens expr)
  | .value v => fun _ => pure (.param v)
  | .subquery q => fun _ => do
    let inner ← (clauses d q).inner q
    pure (.rows inner)
  | .operation op [a, b] => fun s =>
    match PairForm.of op a b with
    | .nullTest test true => do
      let x ← a.resolver d s
      pure (.apply test [x])
    | .nullTest test false => do
      let x ← b.resolver d s
      pure (.apply test [x])
    | .pattern p => do
      let x ← a.resolver d s
      pure (.apply op [x, .param (.text p)])
    | .needsText => throw (.invalidQuery (.needsText op b.text))
    | .plain => do
      let x ← a.resolver d s
      let y ← b.resolver d s
      counted d op [x, y]
  | .operation op operands => fun s => do
    let args ← (resolvers d operands).mapM (· s)
    counted d op args
  | .table t => fun s => found s (.table t) (·.primaryKey.name)
  | .reference p r t => fun s => found s (.reference p r t) (·.primaryKey.name)
  | .reverse p r t => fun s => found s (.reverse p r t) (·.primaryKey.name)
  | .manyMany p m t => fun s => found s (.manyMany p m t) (·.primaryKey.name)

def resolvers (d : Dialect) : List Node → List Resolver
  | [] => []
  | n :: rest => n.resolver d :: resolvers d rest

def sortResolvers (d : Dialect) : List (SortTerm Node) → List (SortItem Resolver)
  | [] => []
  | ⟨n, descending⟩ :: rest => ⟨n.resolver d, descending⟩ :: sortResolvers d rest

def calculationResolvers (d : Dialect) :
    List (Calculation Node) → List ((Option Path × String) × Resolver)
  | [] => []
  | ⟨target, name, expression⟩ :: rest =>
    ((target.path?, name), expression.resolver d) :: calculationResolvers d rest

/-- The nodes of a query, waiting for their scope. -/
def clauses (d : Dialect) : QueryOf Node → Clauses
  | ⟨_, _, conditions, orderBys, groupBys, calculations, having, _, _, _, _⟩ => {
    conditions := resolvers d conditions
    groupBys := resolvers d groupBys
    having := resolvers d having
    orderBys := sortResolvers d orderBys
    calculations := calculationResolvers d calculations }

end

end Node

namespace QueryOf

/-- The selection of a query over its joins. -/
def select (q : Query) (tree : JoinTree) (d : Dialect) : Except Error Select :=
  ((Node.clauses d q).select q tree).run' 0

/-- The statement that counts the objects of the root over their joins. Rows of grouped and
distinct queries are counted as they are; of a page, and where joins repeat the root, the different
keys. -/
def counting (q : Query) (tree : JoinTree) (d : Dialect) : Except Error Counting :=
  let c := Node.clauses d q
  let s := c.scope tree
  let key : Expr := .column ⟨tree.root.label, tree.root.table.primaryKey.name⟩
  let plain (item : SelectItem Expr) (conditions : List Expr) : Select :=
    { distinct := false, items := [item], source := tree.source, conditions
      groupBys := [], having := [], orderBys := [], limit := none, offset := none, locked := false }
  let counted : Emission Counting := do
    if q.distinct || tree.grouped then
      let inner ← c.select { q with forUpdate := false } tree
      pure (.derived inner)
    else
      let conditions ← c.conditions.mapM (· s)
      if q.limit.isSome || q.offset.isSome then
        let orderBys ← c.sorts s
        pure (.derived { plain ⟨key, none⟩ conditions with
          distinct := true, orderBys, limit := q.limit, offset := q.offset })
      else
        let count : Expr :=
          if tree.fansOut then .apply .countDistinct [key] else .apply .countAll []
        pure (.direct (plain ⟨count, some Counting.name⟩ conditions))
  counted.run' 0

end QueryOf

end RecordGraph
