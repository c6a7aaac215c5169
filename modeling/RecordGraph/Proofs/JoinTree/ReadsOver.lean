import RecordGraph.Proofs.Node.Over

/-!
# What a query over a schema reads

* `Reads.Over`: what is read at a path is what the schema has there.
* `Reads.ofQuery?_over`: so it is for every query over the schema; every function of the walk has
  its lemma.
-/
namespace RecordGraph

namespace Reads

/-- Every join is what its path leads to, columns are columns of their tables, and no calculation is
declared twice. -/
structure Over (s : Schema) (r : Reads) : Prop extends r.Closed where
  joins : ∀ j ∈ r.root :: r.joins, s.join? j.path = some (j.relation, j.table)
  columns : ∀ c ∈ r.columns, ∃ relation t, s.join? c.path = some (relation, t) ∧
    c.column ∈ t.columns
  calculations : r.calculations.Pairwise fun a b => ¬(a.path = b.path ∧ a.name = b.name)

variable {s : Schema}

theorem ensure_over {r r' : Reads} (ho : r.Over s) {n : Node} (hn : n.Over s)
    (h : r.ensure n = .ok r') : r'.Over s := by
  -- on the chain of relations that ends in `n`
  obtain ⟨path, hp, ⟨-, rfl⟩ | ⟨hm, p, rel, t, r₁, hl, h1, hr⟩⟩ := ensure_cases h
  · exact ho
  · have := Node.sizeOf_lt_of_link hl
    have ho1 := ensure_over ho (hn.of_link hl).1 h1
    obtain ⟨_, -, -, hadds⟩ := ensure_adds ho.toClosed h
    refine ⟨hadds.closed, ?_, by rw [hr]; exact ho1.columns, by rw [hr]; exact ho1.calculations⟩
    subst hr
    intro j hj
    rw [← List.cons_append, List.mem_append, List.mem_singleton] at hj
    rcases hj with hj | rfl
    · exact ho1.joins j hj
    · have ht : n.target? = some t := Node.target?_of_link hl
      obtain ⟨path', hp', hjoin⟩ := hn.join?_eq ht
      obtain rfl : path = path' := Option.some.inj (hp.symm.trans hp')
      rw [hjoin, Node.Over.relation, hl]
      rfl
termination_by sizeOf n

/-- Columns are read of the table that the node stands for. -/
theorem read_over {r r' : Reads} (ho : r.Over s) {n : Node} (hn : n.Over s) {t : Table}
    (ht : n.target? = some t) {selected : Bool} {columns : Table → List Column}
    (hcols : ∀ c ∈ columns t, c ∈ t.columns) (h : r.read n selected columns = .ok r') :
    r'.Over s := by
  have hclosed := (read_adds ho.toClosed h).closed
  obtain ⟨r₁, path, j, h1, hp, hj, hr⟩ := read_cases ho.toClosed h
  have ho1 := ensure_over ho hn h1
  obtain ⟨hjm, hjp⟩ := mem_of_join? hj
  obtain ⟨path', hp', hjoin⟩ := hn.join?_eq ht
  obtain rfl : path = path' := Option.some.inj (hp.symm.trans hp')
  have htable : j.table = t := by
    have := ho1.joins j hjm
    rw [hjp, hjoin] at this
    exact (Prod.mk.inj (Option.some.inj this)).2.symm
  refine ⟨hclosed, by rw [hr]; exact ho1.joins, ?_, by rw [hr]; exact ho1.calculations⟩
  subst hr
  intro c hc
  rcases List.mem_append.1 hc with hc | hc
  · exact ho1.columns c hc
  · obtain ⟨d, hd, rfl⟩ := List.mem_map.1 hc
    exact ⟨_, t, hjoin, hcols d (htable ▸ hd)⟩

/-- Only what is joined, read and declared counts. -/
theorem Over.withCalculated {r : Reads} (ho : r.Over s) (more : List (Path × String)) :
    ({ r with calculated := r.calculated ++ more } : Reads).Over s :=
  ⟨⟨ho.root_length, ho.nodup, ho.start_mem⟩, ho.joins, ho.columns, ho.calculations⟩

theorem read_column_over {r r' : Reads} (ho : r.Over s) {p : Node} {c : Column}
    (hn : (Node.column p c).Over s) {selected : Bool}
    (h : r.read p selected (fun _ => [c]) = .ok r') : r'.Over s := by
  obtain ⟨hp, t, ht, hc⟩ := hn.of_column
  exact read_over ho hp ht (by simpa using hc) h

theorem read_key_over {r r' : Reads} (ho : r.Over s) {n : Node} (hn : n.Over s)
    {t : Table} (ht : n.target? = some t)
    (h : r.read n false (fun t => [t.primaryKey]) = .ok r') : r'.Over s :=
  read_over ho hn ht (by simpa using t.primaryKey_mem) h

mutual

theorem expression_over {r r' : Reads} (ho : r.Over s) :
    ∀ {n : Node}, n.Over s → r.expression n = .ok r' → r'.Over s
  | .column p c, hn, h => read_column_over ho hn (by rwa [expression] at h)
  | .calculated p name, hn, h => by
    rw [expression] at h
    obtain ⟨r₁, h1, h2⟩ := bind_eq_ok_iff.1 h
    cases h2
    exact (ensure_over ho hn.of_calculated h1).withCalculated _
  | .operation op operands, hn, h => by
    rw [expression] at h
    exact expressions_over ho hn.of_operation h
  | .value v, _, h => by
    simp only [expression, Except.ok.injEq] at h; exact h ▸ ho
  | .subquery q, _, h => by
    simp only [expression, Except.ok.injEq] at h; exact h ▸ ho
  | .table t, hn, h => read_key_over ho hn rfl (by rwa [expression] at h <;> simp)
  | .reference p rel t, hn, h => read_key_over ho hn rfl (by rwa [expression] at h <;> simp)
  | .reverse p rel t, hn, h => read_key_over ho hn rfl (by rwa [expression] at h <;> simp)
  | .manyMany p rel t, hn, h => read_key_over ho hn rfl (by rwa [expression] at h <;> simp)

theorem expressions_over {r r' : Reads} (ho : r.Over s) :
    ∀ {ns : List Node}, (∀ n ∈ ns, n.Over s) → r.expressions ns = .ok r' → r'.Over s
  | [], _, h => by simp only [expressions, Except.ok.injEq] at h; exact h ▸ ho
  | n :: rest, hn, h => by
    rw [expressions] at h
    obtain ⟨r₁, h1, h2⟩ := bind_eq_ok_iff.1 h
    exact expressions_over (expression_over ho (hn n List.mem_cons_self) h1)
      (fun m hm => hn m (List.mem_cons_of_mem _ hm)) h2

end

theorem groupBy_over {r r' : Reads} (ho : r.Over s) {n : Node} (hn : n.Over s)
    (h : r.groupBy n = .ok r') : r'.Over s := by
  obtain ⟨p, c, rfl, hr⟩ := groupBy_cases h
  exact read_column_over ho hn hr

theorem selectAll_over {r r' : Reads} (ho : r.Over s) {n : Node} (hn : n.Over s) {t : Table}
    (ht : n.target? = some t) (h : r.selectAll n = .ok r') : r'.Over s :=
  read_over ho hn ht (fun _ hc => hc) h

theorem select_over {r r' : Reads} (ho : r.Over s) {n : Node} (hn : n.Over s)
    (h : r.select n = .ok r') : r'.Over s := by
  cases n <;> simp only [select, Node.isTableLike, if_true, if_false, Bool.false_eq_true,
    reduceCtorEq] at h
  case column p c => exact read_column_over ho hn h
  all_goals exact selectAll_over ho hn rfl h

theorem declare_over {r r' : Reads} (ho : r.Over s) {c : Calculation Node}
    (ht : c.target.Over s) (he : c.expression.Over s) (h : r.declare c = .ok r') : r'.Over s := by
  obtain ⟨r₁, r₂, -, h1, h2, ⟨-, rfl⟩ | ⟨path, -, hnew, rfl⟩⟩ := declare_cases h
  · exact expression_over (ensure_over ho ht h1) he h2
  · have ho2 := expression_over (ensure_over ho ht h1) he h2
    refine ⟨⟨ho2.root_length, ho2.nodup, ho2.start_mem⟩, ho2.joins, ho2.columns, ?_⟩
    refine List.pairwise_append.2 ⟨ho2.calculations, List.pairwise_singleton _ _, ?_⟩
    intro a ha b hb hab
    rw [List.mem_singleton.1 hb] at hab
    have := List.any_eq_false.1 hnew a ha
    simp only [hab.1, hab.2, beq_self_eq_true, Bool.and_self, not_true_eq_false] at this

theorem start_over {d : String} {t : Table} (ht : s.table? t.name = some t) :
    (start [.table d t.name] t).Over s where
  toClosed := start_closed d t.name t
  joins j hj := by
    rw [List.mem_singleton.1 hj]
    simp [start, Schema.join?, ht, pure]
  columns := by simp [start]
  calculations := .nil

/-- **What is read.** A query over a schema reads what the schema has. -/
theorem ofQuery?_over {q : Query} (hq : q.Over s) {r : Reads} (h : ofQuery? q = .ok r) :
    r.Over s := by
  obtain ⟨t, r₁, r₂, r₃, r₄, r₅, r₆, hroot, h1, h2, h3, h4, h5, h6, h7, -⟩ := ofQuery?_cases h
  have hnodes : ∀ n ∈ q.nodes, n.Over s := hq
  simp only [QueryOf.nodes, List.mem_cons, List.mem_append, List.mem_flatMap, or_imp,
    forall_and, forall_eq] at hnodes
  obtain ⟨hor, ⟨⟨⟨⟨hog, hos⟩, hoc⟩, hoo⟩, hoh⟩, hocalc⟩ := hnodes
  rw [hroot] at hor
  have ht : s.table? t.name = some t := hor.table?_eq
  have o1 : r₁.Over s := foldlM_keeps (fun n hn _ _ ho hg => groupBy_over ho (hog n hn) hg)
    (start_over ht) h1
  have o2 : r₂.Over s := by
    split at h2
    · rw [(selectGrouped_fold _ h2).1]; exact o1
    · exact foldlM_keeps (fun n hn _ _ ho hs => select_over ho (hos n hn) hs) o1 h2
  have o3 : r₃.Over s := by
    split at h3
    · rw [hroot] at h3
      exact selectAll_over o2 hor rfl h3
    · cases h3; exact o2
  have o4 := expressions_over o3 hoc h4
  have o5 := expressions_over o4 hoo h5
  have o6 := expressions_over o5 hoh h6
  exact foldlM_keeps (fun c hc _ _ ho hd => declare_over ho (hocalc _ ⟨c, hc, by simp⟩)
    (hocalc _ ⟨c, hc, by simp⟩) hd) o6 h7

end Reads

end RecordGraph
