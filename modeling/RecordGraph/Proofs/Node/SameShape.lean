import Mathlib.Data.List.Forall2
import RecordGraph.Proofs.Node.Inner

/-!
# Nodes that differ in their values only

Two nodes are `Parallel` when they are built alike and their values correspond one by one; two
queries have the `SameShape` when they may differ in what their values are, but for null.

**Results.**
* `QueryOf.Paired.nodes`: paired queries have paired nodes, in the order of `QueryOf.nodes`.
* `QueryOf.SameShape.enumerated`: corresponding values of two queries have the same number.
* `Node.Parallel.eq_of_path`: a node with a place has no values, so it is its own counterpart.
-/
namespace RecordGraph

/-! ## Pairs of lists -/

section Lists

variable {α β γ : Type} {R : α → β → Prop}

/-- Corresponding members of two lists stand at the same place. -/
theorem forall₂_and_mem_zip {as : List α} {bs : List β} (h : List.Forall₂ R as bs) :
    List.Forall₂ (fun a b => R a b ∧ (a, b) ∈ as.zip bs) as bs :=
  List.forall₂_iff_zip.2 ⟨h.length_eq, fun hab => ⟨(List.forall₂_iff_zip.1 h).2 hab, hab⟩⟩

theorem isEmpty_eq_of_forall₂ {as : List α} {bs : List β} (h : List.Forall₂ R as bs) :
    as.isEmpty = bs.isEmpty := by
  cases h <;> rfl

/-- Lists whose members give as much as their counterparts, pair by pair. -/
theorem zip_flatMap {f : α → List γ} {g : β → List γ} {as : List α} {bs : List β}
    (h : List.Forall₂ (fun a b => (f a).length = (g b).length) as bs) :
    (as.flatMap f).zip (bs.flatMap g) = (as.zip bs).flatMap fun p => (f p.1).zip (g p.2) := by
  induction h with
  | nil => rfl
  | cons hab _ ih => simp only [List.flatMap_cons, List.zip_cons_cons, List.zip_append hab, ih]

theorem length_flatMap_eq {f : α → List γ} {g : β → List γ} {as : List α} {bs : List β}
    (h : List.Forall₂ (fun a b => (f a).length = (g b).length) as bs) :
    (as.flatMap f).length = (bs.flatMap g).length := by
  induction h with
  | nil => rfl
  | cons hab _ ih => simp only [List.flatMap_cons, List.length_append, hab, ih]

end Lists

/-! ## Queries over related nodes -/

section

variable {ν μ : Type}

/-- Sorted by related nodes, in the same direction. -/
inductive SortTerm.Paired (R : ν → μ → Prop) : SortTerm ν → SortTerm μ → Prop where
  | mk {n : ν} {n' : μ} (descending : Bool) : R n n' → Paired R ⟨n, descending⟩ ⟨n', descending⟩

/-- Related expressions of related targets, under the same name. -/
inductive Calculation.Paired (R : ν → μ → Prop) : Calculation ν → Calculation μ → Prop where
  | mk {target expression : ν} {target' expression' : μ} (name : String) : R target target' →
    R expression expression' → Paired R ⟨target, name, expression⟩ ⟨target', name, expression'⟩

/-- Two queries whose nodes are related one by one, and that agree in all else. -/
inductive QueryOf.Paired (R : ν → μ → Prop) : QueryOf ν → QueryOf μ → Prop where
  | mk {root : ν} {root' : μ} {selects conditions groupBys having : List ν}
      {selects' conditions' groupBys' having' : List μ} {orderBys : List (SortTerm ν)}
      {orderBys' : List (SortTerm μ)} {calculations : List (Calculation ν)}
      {calculations' : List (Calculation μ)} (limit offset : Option UInt64)
      (distinct forUpdate : Bool) : R root root' → List.Forall₂ R selects selects' →
    List.Forall₂ R conditions conditions' → List.Forall₂ (SortTerm.Paired R) orderBys orderBys' →
    List.Forall₂ R groupBys groupBys' →
    List.Forall₂ (Calculation.Paired R) calculations calculations' →
    List.Forall₂ R having having' → Paired R
      ⟨root, selects, conditions, orderBys, groupBys, calculations, having, limit, offset,
        distinct, forUpdate⟩
      ⟨root', selects', conditions', orderBys', groupBys', calculations', having', limit, offset,
        distinct, forUpdate⟩

end

/-- Operators that search for a text. -/
def Op.searches : Op → Bool
  | .startsWith | .endsWith | .contains => true
  | _ => false

namespace Node

/-- A constant text. -/
def isText : Node → Bool
  | .value (.text _) => true
  | _ => false

theorem exists_text_of_isText {n : Node} (h : n.isText = true) : ∃ s, n = .value (.text s) := by
  unfold isText at h
  split at h
  · exact ⟨_, rfl⟩
  · cases h

theorem isNullValue_value (v : Value) : (value v).isNullValue = v.isNull := by cases v <;> rfl

/-- Two nodes that are built alike, of values that are related one by one. Where an operator
searches for a text, both nodes have one or neither has. -/
inductive Parallel (R : Value → Value → Prop) : Node → Node → Prop where
  | table (t : Table) : Parallel R (.table t) (.table t)
  | column {p p' : Node} (c : Column) : Parallel R p p' →
    Parallel R (.column p c) (.column p' c)
  | reference {p p' : Node} (r : Reference) (t : Table) : Parallel R p p' →
    Parallel R (.reference p r t) (.reference p' r t)
  | reverse {p p' : Node} (r : Reverse) (t : Table) : Parallel R p p' →
    Parallel R (.reverse p r t) (.reverse p' r t)
  | manyMany {p p' : Node} (m : ManyMany) (t : Table) : Parallel R p p' →
    Parallel R (.manyMany p m t) (.manyMany p' m t)
  | calculated {p p' : Node} (name : String) : Parallel R p p' →
    Parallel R (.calculated p name) (.calculated p' name)
  | operation {op : Op} {xs xs' : List Node} : List.Forall₂ (Parallel R) xs xs' →
    (op.searches = true → xs[1]?.map isText = xs'[1]?.map isText) →
    Parallel R (.operation op xs) (.operation op xs')
  | value {v v' : Value} : R v v' → v.isNull = v'.isNull → Parallel R (.value v) (.value v')
  | subquery {q q' : Query} : QueryOf.Paired (Parallel R) q q' →
    Parallel R (.subquery q) (.subquery q')

end Node

namespace QueryOf.Paired

variable {R S : Node → Node → Prop} {q q' : Query}

/-- The nodes of paired queries, list by list. -/
theorem lists (h : q.Paired R q') : R q.root q'.root ∧ List.Forall₂ R q.groupBys q'.groupBys ∧
    List.Forall₂ R q.selects q'.selects ∧ List.Forall₂ R q.conditions q'.conditions ∧
    List.Forall₂ (SortTerm.Paired R) q.orderBys q'.orderBys ∧
    List.Forall₂ R q.having q'.having ∧
    List.Forall₂ (Calculation.Paired R) q.calculations q'.calculations := by
  obtain ⟨_, _, _, _, root, selects, conditions, orderBys, groupBys, calculations, having⟩ := h
  exact ⟨root, groupBys, selects, conditions, orderBys, having, calculations⟩

/-- What paired queries agree in. -/
theorem frame (h : q.Paired R q') : q.limit = q'.limit ∧ q.offset = q'.offset ∧
    q.distinct = q'.distinct ∧ q.forUpdate = q'.forUpdate := by
  cases h
  exact ⟨rfl, rfl, rfl, rfl⟩

/-- Paired queries have paired nodes. -/
theorem nodes (h : q.Paired R q') : List.Forall₂ R q.nodes q'.nodes := by
  obtain ⟨root, groupBys, selects, conditions, orderBys, having, calculations⟩ := h.lists
  have happend {as bs as' bs' : List Node} (ha : List.Forall₂ R as as')
      (hb : List.Forall₂ R bs bs') : List.Forall₂ R (as ++ bs) (as' ++ bs') :=
    List.rel_append ha hb
  refine .cons root (happend (happend (happend (happend (happend groupBys selects) conditions) ?_)
    having) ?_)
  · exact List.rel_map (fun _ _ ⟨_, h⟩ => h) orderBys
  · exact List.rel_flatMap calculations fun _ _ ⟨_, ht, he⟩ => .cons ht (.cons he .nil)

/-- The pairs of corresponding nodes, list by list. -/
theorem zip_nodes (h : q.Paired R q') : q.nodes.zip q'.nodes =
    (q.root, q'.root) :: (q.groupBys.zip q'.groupBys ++ q.selects.zip q'.selects
      ++ q.conditions.zip q'.conditions
      ++ (q.orderBys.zip q'.orderBys).map (fun p => (p.1.node, p.2.node))
      ++ q.having.zip q'.having
      ++ (q.calculations.zip q'.calculations).flatMap fun p =>
        [(p.1.target, p.2.target), (p.1.expression, p.2.expression)]) := by
  obtain ⟨-, groupBys, selects, conditions, orderBys, having, calculations⟩ := h.lists
  have hpairs := zip_flatMap (f := fun k : Calculation Node => [k.target, k.expression])
    (g := fun k => [k.target, k.expression]) (calculations.imp fun _ _ _ => rfl)
  simp only [List.zip_cons_cons, List.zip_nil_right] at hpairs
  simp (disch := simp [groupBys.length_eq, selects.length_eq, conditions.length_eq,
    orderBys.length_eq, having.length_eq]) only [QueryOf.nodes, List.zip_cons_cons,
    List.zip_append, List.zip_map, hpairs]
  rfl

/-- What holds of every two corresponding nodes may be required of a pairing. -/
theorem imp_zip (h : q.Paired R q')
    (hS : ∀ p ∈ q.nodes.zip q'.nodes, R p.1 p.2 → S p.1 p.2) : q.Paired S q' := by
  rw [zip_nodes h] at hS
  obtain ⟨limit, offset, distinct, forUpdate, root, selects, conditions, orderBys, groupBys,
    calculations, having⟩ := h
  simp only [List.forall_mem_cons, List.forall_mem_append, List.forall_mem_map,
    List.forall_mem_flatMap, List.not_mem_nil, false_implies, implies_true, and_true] at hS
  obtain ⟨hroot, ⟨⟨⟨⟨hgroupBys, hselects⟩, hconditions⟩, horderBys⟩, hhaving⟩, hcalculations⟩ := hS
  have hlist {as as' : List Node} (h : List.Forall₂ R as as')
      (hmem : ∀ p ∈ as.zip as', R p.1 p.2 → S p.1 p.2) : List.Forall₂ S as as' :=
    (forall₂_and_mem_zip h).imp fun n n' ⟨hr, hz⟩ => hmem _ hz hr
  refine ⟨limit, offset, distinct, forUpdate, hroot root, hlist selects hselects,
    hlist conditions hconditions, ?_, hlist groupBys hgroupBys, ?_, hlist having hhaving⟩
  · exact (forall₂_and_mem_zip orderBys).imp fun _ _ ⟨⟨_, hr⟩, hz⟩ => ⟨_, horderBys _ hz hr⟩
  · exact (forall₂_and_mem_zip calculations).imp fun _ _ ⟨⟨_, ht, he⟩, hz⟩ =>
      ⟨_, (hcalculations _ hz).1 ht, (hcalculations _ hz).2 he⟩

theorem refl (hR : ∀ n ∈ q.nodes, R n n) : q.Paired R q := by
  obtain ⟨hroot, hgroupBys, hselects, hconditions, horderBys, hhaving, hcalculations⟩ :=
    forall_mem_nodes.1 hR
  exact ⟨q.limit, q.offset, q.distinct, q.forUpdate, hroot, List.forall₂_same.2 hselects,
    List.forall₂_same.2 hconditions, List.forall₂_same.2 fun _ hs => ⟨_, horderBys _ hs⟩,
    List.forall₂_same.2 hgroupBys,
    List.forall₂_same.2 fun _ hk => ⟨_, (hcalculations _ hk).1, (hcalculations _ hk).2⟩,
    List.forall₂_same.2 hhaving⟩

end QueryOf.Paired

namespace Node.Parallel

variable {R S : Value → Value → Prop}

/-- Parallel nodes have equally many values. -/
theorem length_values : ∀ {n n' : Node}, Parallel R n n' → n.values.length = n'.values.length
  | _, _, .table _ => rfl
  | _, _, .column _ h | _, _, .reference _ _ h | _, _, .reverse _ _ h | _, _, .manyMany _ _ h
  | _, _, .calculated _ h => by simpa only [values] using length_values h
  | _, _, .operation hs _ => by
    simp only [values_operation]
    exact length_flatMap_eq ((forall₂_and_mem_zip hs).imp fun _ _ h =>
      have := List.sizeOf_lt_of_mem (List.of_mem_zip h.2).1
      length_values h.1)
  | _, _, .value .. => by simp only [values, List.length_singleton]
  | .subquery q, .subquery q', .subquery hq => by
    simp only [values_subquery, QueryOf.values]
    exact length_flatMap_eq ((forall₂_and_mem_zip hq.nodes).imp fun _ _ h =>
      have := QueryOf.sizeOf_lt_of_mem_nodes (List.of_mem_zip h.2).1
      length_values h.1)
termination_by n => sizeOf n

/-- A node is parallel to itself. -/
theorem refl (hR : ∀ v, R v v) : ∀ n : Node, Parallel R n n
  | .table t => .table t
  | .column p c => .column c (refl hR p)
  | .reference p r t => .reference r t (refl hR p)
  | .reverse p r t => .reverse r t (refl hR p)
  | .manyMany p m t => .manyMany m t (refl hR p)
  | .calculated p name => .calculated name (refl hR p)
  | .operation op xs => .operation (List.forall₂_same.2 fun x hx =>
      have := List.sizeOf_lt_of_mem hx
      refl hR x) fun _ => rfl
  | .value v => .value (hR v) rfl
  | .subquery q => .subquery (.refl fun n hn =>
      have := QueryOf.sizeOf_lt_of_mem_nodes hn
      refl hR n)
termination_by n => sizeOf n
decreasing_by
  all_goals
    simp_wf
    omega

/-- What holds of every two corresponding values may be required of parallel nodes. -/
theorem imp_zip : ∀ {n n' : Node}, Parallel R n n' →
    (∀ p ∈ n.values.zip n'.values, R p.1 p.2 → S p.1 p.2) → Parallel S n n'
  | _, _, .table t, _ => .table t
  | _, _, .column c h, hS => .column c (imp_zip h (by simpa only [values] using hS))
  | _, _, .reference r t h, hS => .reference r t (imp_zip h (by simpa only [values] using hS))
  | _, _, .reverse r t h, hS => .reverse r t (imp_zip h (by simpa only [values] using hS))
  | _, _, .manyMany m t h, hS => .manyMany m t (imp_zip h (by simpa only [values] using hS))
  | _, _, .calculated name h, hS => .calculated name (imp_zip h (by simpa only [values] using hS))
  | _, _, .operation hs hsearch, hS => by
    rw [values_operation, values_operation,
      zip_flatMap (hs.imp fun _ _ h => h.length_values)] at hS
    exact .operation ((forall₂_and_mem_zip hs).imp fun _ _ h =>
      have := List.sizeOf_lt_of_mem (List.of_mem_zip h.2).1
      imp_zip h.1 fun p hp => hS p (List.mem_flatMap.2 ⟨_, h.2, hp⟩)) hsearch
  | .value v, .value v', .value h hnull, hS => by
    rw [values, values, List.zip_cons_cons, List.zip_nil_right, List.forall_mem_singleton] at hS
    exact .value (hS h) hnull
  | .subquery q, .subquery q', .subquery hq, hS => by
    rw [values_subquery, values_subquery, QueryOf.values, QueryOf.values,
      zip_flatMap (hq.nodes.imp fun _ _ h => h.length_values)] at hS
    exact .subquery (hq.imp_zip fun a hz h =>
      have := QueryOf.sizeOf_lt_of_mem_nodes (List.of_mem_zip hz).1
      imp_zip h fun p hp => hS p (List.mem_flatMap.2 ⟨_, hz, hp⟩))
termination_by n => sizeOf n

/-- Parallel nodes are at the same place. -/
theorem path?_eq : ∀ {n n' : Node}, Parallel R n n' → n.path? = n'.path?
  | _, _, .table _ | _, _, .operation .. | _, _, .value .. | _, _, .subquery _ => rfl
  | _, _, .column _ h | _, _, .calculated _ h => by simpa only [path?] using path?_eq h
  | _, _, .reference _ _ h | _, _, .reverse _ _ h | _, _, .manyMany _ _ h => by
    simp only [path?, path?_eq h]

/-- A node with a place is its own counterpart. -/
theorem eq_of_path : ∀ {n n' : Node}, Parallel R n n' → n.path?.isSome → n = n'
  | _, _, .table _, _ => rfl
  | _, _, .column _ h, hp | _, _, .calculated _ h, hp => by rw [eq_of_path h hp]
  | _, _, .reference _ _ h, hp | _, _, .reverse _ _ h, hp | _, _, .manyMany _ _ h, hp => by
    rw [path?, Option.isSome_map] at hp
    rw [eq_of_path h hp]
  | _, _, .operation .., hp | _, _, .value .., hp | _, _, .subquery _, hp => by
    simp [path?] at hp

theorem isTableLike_eq {n n' : Node} (h : Parallel R n n') : n.isTableLike = n'.isTableLike := by
  cases h <;> rfl

theorem isNullValue_eq {n n' : Node} (h : Parallel R n n') : n.isNullValue = n'.isNullValue := by
  cases h with
  | value _ hnull => rwa [isNullValue_value, isNullValue_value]
  | _ => rfl

end Node.Parallel

/-! ## Queries of the same shape -/

/-- Two queries that differ in nothing but what their values are: null stays null, and a text that
is searched for stays a text. -/
def QueryOf.SameShape (q q' : Query) : Prop := q.Paired (Node.Parallel fun _ _ => True) q'

/-- Corresponding values of two queries have the same number. -/
theorem QueryOf.SameShape.enumerated {q q' : Query} (h : q.SameShape q') :
    q.Paired (Node.Parallel fun v v' =>
      ∃ i : Nat, q.values[i]? = some v ∧ q'.values[i]? = some v') q' := by
  have hlength := h.nodes.imp fun _ _ h => h.length_values
  refine h.imp_zip fun p hz hp => hp.imp_zip fun w hw _ => ?_
  have hmem : w ∈ q.values.zip q'.values := by
    rw [values, values, zip_flatMap hlength]
    exact List.mem_flatMap.2 ⟨p, hz, hw⟩
  obtain ⟨i, hi⟩ := List.mem_iff_getElem?.1 hmem
  exact ⟨i, List.getElem?_zip_eq_some.1 hi⟩

end RecordGraph
