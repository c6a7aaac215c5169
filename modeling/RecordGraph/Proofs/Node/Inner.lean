import RecordGraph.Proofs.JoinTree.ReadPaths

/-!
# What is in a node

`Node.inner` lists the nodes that a node is made of, those of an inner query included, and
`Node.values` the values anywhere in it, in the order of `QueryOf.nodes`.

* `Node.inner_induction`: what holds of a node whose inner nodes have it holds of every node.
* `Node.mem_values_of_inner`: the values of the inner nodes are values of the node.
-/
namespace RecordGraph

/-- What holds of the nodes of a query, list by list. -/
theorem QueryOf.forall_mem_nodes {q : Query} {P : Node → Prop} : (∀ n ∈ q.nodes, P n) ↔
    P q.root ∧ (∀ n ∈ q.groupBys, P n) ∧ (∀ n ∈ q.selects, P n) ∧ (∀ n ∈ q.conditions, P n) ∧
      (∀ s ∈ q.orderBys, P s.node) ∧ (∀ n ∈ q.having, P n) ∧
      ∀ k ∈ q.calculations, P k.target ∧ P k.expression := by
  simp only [QueryOf.nodes, List.forall_mem_cons, List.forall_mem_append, List.forall_mem_map,
    List.forall_mem_flatMap, List.not_mem_nil, false_implies, implies_true, and_true, and_assoc]

/-! ## The nodes that a node is made of -/

namespace Node

/-- The nodes that a node is made of. -/
def inner : Node → List Node
  | .column p _ | .reference p _ _ | .reverse p _ _ | .manyMany p _ _ | .calculated p _ => [p]
  | .operation _ operands => operands
  | .subquery q => q.nodes
  | .table _ | .value _ => []

theorem sizeOf_lt_of_mem_inner {n p : Node} (h : p ∈ n.inner) : sizeOf p < sizeOf n := by
  cases n with
  | operation op operands =>
    have := List.sizeOf_lt_of_mem (show p ∈ operands from h)
    rw [operation.sizeOf_spec]
    omega
  | subquery q =>
    have := QueryOf.sizeOf_lt_of_mem_nodes (show p ∈ q.nodes from h)
    rw [subquery.sizeOf_spec]
    omega
  | table _ | value _ => exact absurd h List.not_mem_nil
  | _ =>
    obtain rfl := List.mem_singleton.1 h
    simp only [column.sizeOf_spec, reference.sizeOf_spec, reverse.sizeOf_spec,
      manyMany.sizeOf_spec, calculated.sizeOf_spec]
    omega

/-- What holds of a node whose inner nodes have it holds of every node. -/
theorem inner_induction {P : Node → Prop} (step : ∀ n, (∀ p ∈ n.inner, P p) → P n) (n : Node) :
    P n :=
  step n fun p h =>
    have := sizeOf_lt_of_mem_inner h
    inner_induction step p
termination_by sizeOf n

end Node

/-! ## The values in a node -/

namespace Node

mutual

/-- The values in a node. -/
def values : Node → List Value
  | .table _ => []
  | .column p _ | .reference p _ _ | .reverse p _ _ | .manyMany p _ _ | .calculated p _ => p.values
  | .operation _ operands => valuesAll operands
  | .value v => [v]
  | .subquery q => queryValues q

/-- The values in the nodes of a query. -/
def queryValues : QueryOf Node → List Value
  | ⟨root, selects, conditions, orderBys, groupBys, calculations, having, _, _, _, _⟩ =>
    root.values ++ (valuesAll groupBys ++ valuesAll selects ++ valuesAll conditions
      ++ sortValues orderBys ++ valuesAll having ++ calculationValues calculations)

def valuesAll : List Node → List Value
  | [] => []
  | n :: rest => n.values ++ valuesAll rest

def sortValues : List (SortTerm Node) → List Value
  | [] => []
  | ⟨n, _⟩ :: rest => n.values ++ sortValues rest

def calculationValues : List (Calculation Node) → List Value
  | [] => []
  | ⟨target, _, expression⟩ :: rest =>
    target.values ++ expression.values ++ calculationValues rest

end

theorem valuesAll_eq (ns : List Node) : valuesAll ns = ns.flatMap values := by
  induction ns with
  | nil => rw [valuesAll, List.flatMap_nil]
  | cons n ns ih => rw [valuesAll, ih, List.flatMap_cons]

theorem sortValues_eq (sorts : List (SortTerm Node)) :
    sortValues sorts = (sorts.map (·.node)).flatMap values := by
  induction sorts with
  | nil => rw [sortValues, List.map_nil, List.flatMap_nil]
  | cons s sorts ih => rw [sortValues, ih, List.map_cons, List.flatMap_cons]

theorem calculationValues_eq (ks : List (Calculation Node)) :
    calculationValues ks = (ks.flatMap fun k => [k.target, k.expression]).flatMap values := by
  induction ks with
  | nil => rw [calculationValues, List.flatMap_nil, List.flatMap_nil]
  | cons k ks ih => simp [calculationValues, ih]

end Node

/-- The values in a query, those of inner queries included. -/
def QueryOf.values (q : Query) : List Value := q.nodes.flatMap Node.values

theorem Node.queryValues_eq (q : Query) : queryValues q = q.values := by
  cases q
  simp only [queryValues, valuesAll_eq, sortValues_eq, calculationValues_eq, QueryOf.values,
    QueryOf.nodes, List.flatMap_cons, List.flatMap_append]

@[simp] theorem Node.values_subquery (q : Query) : (Node.subquery q).values = q.values := by
  rw [values, queryValues_eq]

@[simp] theorem Node.values_operation (op : Op) (operands : List Node) :
    (Node.operation op operands).values = operands.flatMap values := by rw [values, valuesAll_eq]

/-- A node with a place is a chain of names. -/
theorem Node.values_of_path : ∀ {n : Node}, n.path?.isSome → n.values = []
  | .table _, _ => by rw [values]
  | .column p _, h | .calculated p _, h => by
    rw [values]
    exact values_of_path (n := p) h
  | .reference p _ _, h | .reverse p _ _, h | .manyMany p _ _, h => by
    rw [values]
    rw [path?, Option.isSome_map] at h
    exact values_of_path h
  | .operation .., h | .value _, h | .subquery _, h => by simp [path?] at h

/-- The values of the inner nodes are values of the node. -/
theorem Node.mem_values_of_inner {n p : Node} (h : p ∈ n.inner) {v : Value} (hv : v ∈ p.values) :
    v ∈ n.values := by
  cases n with
  | operation op operands =>
    rw [values_operation]
    exact List.mem_flatMap.2 ⟨p, h, hv⟩
  | subquery q =>
    rw [values_subquery]
    exact List.mem_flatMap.2 ⟨p, h, hv⟩
  | table _ | value _ => exact absurd h List.not_mem_nil
  | _ =>
    obtain rfl := List.mem_singleton.1 h
    rw [values]
    exact hv

end RecordGraph
