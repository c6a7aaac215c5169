import RecordGraph.Sql.Select

/-!
# The labels of a statement

A selection introduces a label for every table of its FROM clause. A column names the label of a
table of its own selection; a selection inside an expression sees none of the tables around it.

* `SelectOf.labels`, `Counting.labels`: the labels that a statement introduces, at any depth.
* `From.Ordered`: joins refer to what comes before them.
* `SelectOf.Scoped`, `Counting.Scoped`: columns refer to the tables of their own selection.
-/
namespace RecordGraph

/-- Every join compares a column of its own table with one of a table before it. -/
def JoinClause.Ordered : List String → List JoinClause → Prop
  | _, [] => True
  | before, j :: rest =>
    j.own.label = j.label ∧ j.other.label ∈ before ∧ Ordered (before ++ [j.label]) rest

namespace JoinClause

theorem Ordered.mono : ∀ {js : List JoinClause} {before more : List String}, before ⊆ more →
    Ordered before js → Ordered more js
  | [], _, _, _, _ => trivial
  | j :: rest, before, more, hsub, ⟨hown, hother, hrest⟩ => by
    refine ⟨hown, hsub hother, hrest.mono fun l hl => ?_⟩
    rcases List.mem_append.1 hl with hl | hl
    · exact List.mem_append_left _ (hsub hl)
    · exact List.mem_append_right _ hl

theorem Ordered.append : ∀ {js ks : List JoinClause} {before : List String}, Ordered before js →
    Ordered (before ++ js.map (·.label)) ks → Ordered before (js ++ ks)
  | [], ks, before, _, hks => by simpa using hks
  | j :: rest, ks, before, ⟨hown, hother, hrest⟩, hks => by
    refine ⟨hown, hother, hrest.append ?_⟩
    simpa using hks

end JoinClause

namespace From

/-- The labels that a FROM clause introduces. -/
def labels (f : From) : List String := f.label :: f.joins.map (·.label)

/-- Every join refers to its own table, and to one that is introduced before it. -/
def Ordered (f : From) : Prop := JoinClause.Ordered [f.label] f.joins

end From

/-- The expressions of a selection: in SELECT, WHERE, GROUP BY, HAVING and ORDER BY. -/
def SelectOf.expressions {ε : Type} (s : SelectOf ε) : List ε :=
  s.items.map (·.expr) ++ s.conditions ++ s.groupBys ++ s.having ++ s.orderBys.map (·.expr)

namespace Expr

mutual

/-- The labels that the selections inside an expression introduce. -/
def labels : Expr → List String
  | .column _ | .param _ => []
  | .parens e => e.labels
  | .apply _ args => labelsAll args
  | .rows s => selectLabels s

def labelsAll : List Expr → List String
  | [] => []
  | e :: rest => e.labels ++ labelsAll rest

def itemLabels : List (SelectItem Expr) → List String
  | [] => []
  | ⟨e, _⟩ :: rest => e.labels ++ itemLabels rest

def sortLabels : List (SortItem Expr) → List String
  | [] => []
  | ⟨e, _⟩ :: rest => e.labels ++ sortLabels rest

/-- The labels that a selection introduces: in its own FROM clause, and further inside. -/
def selectLabels : SelectOf Expr → List String
  | ⟨_, items, source, conditions, groupBys, having, orderBys, _, _, _⟩ =>
    source.labels ++ (itemLabels items ++ labelsAll conditions ++ labelsAll groupBys
      ++ labelsAll having ++ sortLabels orderBys)

end

theorem labelsAll_eq (es : List Expr) : labelsAll es = es.flatMap labels := by
  induction es with
  | nil => rw [labelsAll, List.flatMap_nil]
  | cons e es ih => rw [labelsAll, ih, List.flatMap_cons]

theorem itemLabels_eq (items : List (SelectItem Expr)) :
    itemLabels items = (items.map (·.expr)).flatMap labels := by
  induction items with
  | nil => rw [itemLabels, List.map_nil, List.flatMap_nil]
  | cons item items ih => rw [itemLabels, ih, List.map_cons, List.flatMap_cons]

theorem sortLabels_eq (sorts : List (SortItem Expr)) :
    sortLabels sorts = (sorts.map (·.expr)).flatMap labels := by
  induction sorts with
  | nil => rw [sortLabels, List.map_nil, List.flatMap_nil]
  | cons sort sorts ih => rw [sortLabels, ih, List.map_cons, List.flatMap_cons]

/-- An expression in a selection with this FROM clause refers to the tables there. A selection
inside it is scoped on its own. -/
inductive Scoped : From → Expr → Prop where
  | column {f : From} {ref : ColumnRef} : ref.label ∈ f.labels → Scoped f (.column ref)
  | param {f : From} {v : Value} : Scoped f (.param v)
  | parens {f : From} {e : Expr} : Scoped f e → Scoped f (.parens e)
  | apply {f : From} {op : Op} {args : List Expr} : (∀ e ∈ args, Scoped f e) →
      Scoped f (.apply op args)
  | rows {f : From} {s : Select} : s.source.Ordered →
      (∀ e ∈ s.expressions, Scoped s.source e) → Scoped f (.rows s)

end Expr

namespace SelectOf

/-- The labels that a selection introduces, at any depth. -/
def labels (s : Select) : List String := Expr.selectLabels s

theorem labels_eq (s : Select) :
    s.labels = s.source.labels ++ s.expressions.flatMap Expr.labels := by
  cases s
  simp only [labels, Expr.selectLabels, expressions, Expr.itemLabels_eq, Expr.labelsAll_eq,
    Expr.sortLabels_eq, List.flatMap_append]

/-- Columns name tables of their own selection, and joins what comes before them. -/
structure Scoped (s : Select) : Prop where
  ordered : s.source.Ordered
  expressions : ∀ e ∈ s.expressions, e.Scoped s.source

end SelectOf

namespace Counting

/-- The labels that a count introduces; counted rows are a table with a name. -/
def labels : Counting → List String
  | .direct s => s.labels
  | .derived s => derivedName :: s.labels

/-- Columns of a count name tables of their own selection. -/
def Scoped : Counting → Prop
  | .direct s | .derived s => s.Scoped

end Counting

end RecordGraph
