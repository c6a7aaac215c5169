import RecordGraph.Query.Resolution

/-!
# The resolvers of a query

* `Node.clauses_eq`: the nodes of a query, list by list, as they wait for their scope.
* `Node.resolver_operation`: an operation that has not two operands.
* `Node.lookup_calculations`: the calculation under a place and a name.
* `JoinTree.elementFor_cases`: where a node is found.
-/
namespace RecordGraph

theorem JoinTree.elementFor_cases {t : JoinTree} {n : Node} {e : Element}
    (h : t.elementFor n = .ok e) : e ∈ t.elements ∧ n.path? = some e.path := by
  unfold elementFor at h
  split at h
  · rename_i e' hfind
    cases h
    obtain ⟨path, hp, hfind⟩ := Option.bind_eq_some_iff.1 hfind
    have hpath : e.path = path := by simpa using List.find?_some hfind
    exact ⟨List.mem_of_find?_eq_some hfind, by rw [hp, hpath]⟩
  · cases h

/-- What is emitted, without the number of the next label. -/
theorem Emission.run'_eq {α : Type} (x : Emission α) (n : Nat) :
    x.run' n = (x.run n).map Prod.fst := rfl

namespace Node

theorem resolvers_eq (d : Dialect) (ns : List Node) : resolvers d ns = ns.map (resolver d) := by
  induction ns with
  | nil => rw [resolvers, List.map_nil]
  | cons n ns ih => rw [resolvers, ih, List.map_cons]

theorem sortResolvers_eq (d : Dialect) (sorts : List (SortTerm Node)) :
    sortResolvers d sorts = sorts.map fun s => ⟨s.node.resolver d, s.descending⟩ := by
  induction sorts with
  | nil => rw [sortResolvers, List.map_nil]
  | cons s sorts ih => rw [sortResolvers, ih, List.map_cons]

theorem calculationResolvers_eq (d : Dialect) (ks : List (Calculation Node)) :
    calculationResolvers d ks =
      ks.map fun k => ((k.target.path?, k.name), k.expression.resolver d) := by
  induction ks with
  | nil => rw [calculationResolvers, List.map_nil]
  | cons k ks ih => rw [calculationResolvers, ih, List.map_cons]

/-- The nodes of a query, list by list. -/
theorem clauses_eq (d : Dialect) (q : Query) : clauses d q = {
    conditions := q.conditions.map (resolver d)
    groupBys := q.groupBys.map (resolver d)
    having := q.having.map (resolver d)
    orderBys := q.orderBys.map fun s => ⟨s.node.resolver d, s.descending⟩
    calculations := q.calculations.map fun k =>
      ((k.target.path?, k.name), k.expression.resolver d) } := by
  cases q
  simp only [clauses, resolvers_eq, sortResolvers_eq, calculationResolvers_eq]

theorem clauses_conditions (d : Dialect) (q : Query) :
    (clauses d q).conditions = q.conditions.map (resolver d) := by rw [clauses_eq]

theorem clauses_groupBys (d : Dialect) (q : Query) :
    (clauses d q).groupBys = q.groupBys.map (resolver d) := by rw [clauses_eq]

theorem clauses_having (d : Dialect) (q : Query) :
    (clauses d q).having = q.having.map (resolver d) := by rw [clauses_eq]

theorem clauses_orderBys (d : Dialect) (q : Query) : (clauses d q).orderBys =
    q.orderBys.map fun s => ⟨s.node.resolver d, s.descending⟩ := by rw [clauses_eq]

theorem clauses_calculations (d : Dialect) (q : Query) : (clauses d q).calculations =
    q.calculations.map fun k => ((k.target.path?, k.name), k.expression.resolver d) := by
  rw [clauses_eq]

/-- An operation that has not two operands resolves them all. -/
theorem resolver_operation {d : Dialect} {s : Scope} {op : Op} {operands : List Node}
    (h : operands.length ≠ 2) : (operation op operands).resolver d s =
      (operands.map (resolver d)).mapM (· s) >>= counted d op := by
  rw [resolver, resolvers_eq]
  rintro a b rfl
  exact h rfl

/-- Under a place and a name stands the expression of a calculation with both. -/
theorem lookup_calculations {d : Dialect} {q : Query} {path : Path} {name : String}
    (h : ∃ k ∈ q.calculations, k.target.path? = some path ∧ k.name = name) :
    ∃ k ∈ q.calculations, k.target.path? = some path ∧ k.name = name ∧
      (clauses d q).calculations.lookup (some path, name) = some (k.expression.resolver d) := by
  rw [clauses_calculations]
  generalize q.calculations = ks at h ⊢
  induction ks with
  | nil => simp at h
  | cons k ks ih =>
    rw [List.map_cons, List.lookup_cons]
    by_cases hk : k.target.path? = some path ∧ k.name = name
    · exact ⟨k, List.mem_cons_self, hk.1, hk.2, by simp [hk]⟩
    · have hne : ((some path, name) == (k.target.path?, k.name)) = false := by
        rw [beq_eq_false_iff_ne]
        intro he
        obtain ⟨hp, hname⟩ := Prod.mk.inj he
        exact hk ⟨hp.symm, hname.symm⟩
      rw [hne]
      obtain ⟨k', hmem, hkey⟩ := h
      have hrest : k' ∈ ks := by
        refine (List.mem_cons.1 hmem).resolve_left ?_
        rintro rfl
        exact hk hkey
      obtain ⟨k'', hk'', hfound⟩ := ih ⟨k', hrest, hkey⟩
      exact ⟨k'', List.mem_cons_of_mem _ hk'', hfound⟩

end Node

end RecordGraph
