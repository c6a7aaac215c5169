import RecordGraph.Proofs.JoinTree.Noted

/-!
# The names that a query reads

A query names columns, calculations, tables and relations: in its lists themselves, and among the
operands of the operations there. A query that can be read names nothing that does not start from
its root, and refers to no calculation that it does not declare at the place where it looks for it.

**Results.**
* `QueryOf.Mentions`: a node stands in a query.
* `Reads.exists_join_of_name`: what a query names is joined.
* `Reads.ofQuery?_recalls`: the calculations that the walk notes, whatever the nodes are.
* `Reads.declared_of_mentions`: the calculations that a query refers to are declared.
-/
namespace RecordGraph

namespace Node

/-- A node is another one, or stands among its operands, at any depth. -/
inductive Within (n : Node) : Node → Prop where
  | self : Within n n
  | operand {op : Op} {operands : List Node} {m : Node} : m ∈ operands → Within n m →
      Within n (.operation op operands)

/-- Columns, calculations, tables and relations. -/
def isName : Node → Bool
  | .operation _ _ | .value _ | .subquery _ => false
  | _ => true

theorem Within.eq {n m : Node} (h : n.Within m) (hm : m.isName = true) : n = m := by
  cases h with
  | self => rfl
  | operand _ _ => cases hm

theorem Within.mem_placesRead {n m : Node} {path : Path} (h : n.Within m)
    (hp : n.path? = some path) : path ∈ m.placesRead := by
  induction h with
  | self => cases n <;> simp_all [placesRead, path?]
  | @operand op operands m hm _ ih =>
    rw [placesRead, Reads.placesReadAll_eq]
    exact List.mem_flatMap.2 ⟨m, hm, ih⟩

/-- Expressions note the calculations that they refer to. -/
theorem Within.mem_calculated {p m : Node} {name : String} {path : Path}
    (h : (calculated p name).Within m) (hp : p.path? = some path) :
    (path, name) ∈ m.noted.calculated := by
  induction h with
  | self => simp [noted, hp]
  | @operand op operands m hm _ ih =>
    rw [noted, notedAll_eq, (Noted.all_eq _).2.2.1]
    exact List.mem_flatMap.2 ⟨m, hm, ih⟩

end Node

/-- A node stands in a query, if only among operands. -/
def QueryOf.Mentions (q : Query) (n : Node) : Prop := ∃ m ∈ q.nodes, n.Within m

/-- The nodes of a query that may be expressions of any kind. -/
def QueryOf.expressions (q : Query) : List Node :=
  q.conditions ++ q.orderBys.map (·.node) ++ q.having ++ q.calculations.map (·.expression)

theorem QueryOf.mem_nodes_of_expression {q : Query} {n : Node} (h : n ∈ q.expressions) :
    n ∈ q.nodes := by
  simp only [expressions, nodes, List.mem_append, List.mem_map, List.mem_cons, List.mem_flatMap,
    List.not_mem_nil, or_false] at h ⊢
  grind

/-- A query declares the calculations that it lists, at the places of their targets. -/
theorem QueryOf.mem_noted_calculations_iff {q : Query} {d : Declared} : d ∈ q.noted.calculations ↔
    ∃ k ∈ q.calculations, k.target.isTableLike = true ∧ k.target.path? = some d.path ∧
      k.name = d.name ∧ k.expression = d.expression := by
  rw [noted_calculations_eq, List.mem_flatMap]
  refine exists_congr fun k => and_congr_right fun _ => ?_
  rw [Calculation.noted]
  cases k.target.isTableLike with
  | true =>
    simp only [Noted.and, Noted.way, Noted.nothing, Node.noted_calculations, if_true,
      List.nil_append, List.mem_map, Option.mem_toList, true_and]
    constructor
    · rintro ⟨path, hp, rfl⟩
      exact ⟨hp, rfl, rfl⟩
    · rintro ⟨hp, hname, hexpression⟩
      exact ⟨d.path, hp, by rw [hname, hexpression]⟩
  | false => simp [Noted.refused]

namespace Reads

variable {r r' : Reads} {n m : Node}

/-! ## What is named is joined -/

theorem exists_path_of_ensure (h : r.ensure n = .ok r') : ∃ path, n.path? = some path := by
  obtain ⟨path, hp, -⟩ := ensure_cases h
  exact ⟨path, hp⟩

theorem exists_path_of_read {selected : Bool} {columns : Table → List Column}
    (h : r.read n selected columns = .ok r') : ∃ path, n.path? = some path := by
  obtain ⟨r₁, h1, -⟩ := bind_eq_ok_iff.1 h
  exact exists_path_of_ensure h1

theorem expressions_eq_foldlM : ∀ (ns : List Node) (r : Reads),
    r.expressions ns = ns.foldlM expression r
  | [], r => by rw [expressions]; rfl
  | n :: rest, r => by
    rw [expressions, List.foldlM_cons]
    exact congrArg _ (funext fun r' => expressions_eq_foldlM rest r')

theorem exists_path_of_name : ∀ {n : Node}, n.isName = true → r.expression n = .ok r' →
    ∃ path, n.path? = some path
  | .column p c, _, h => exists_path_of_read (n := p) (by rwa [expression] at h)
  | .calculated p name, _, h => by
    rw [expression] at h
    obtain ⟨r₁, h1, -⟩ := bind_eq_ok_iff.1 h
    exact exists_path_of_ensure (n := p) h1
  | .table t, _, h => ⟨_, rfl⟩
  | .reference p rel t, _, h =>
    exists_path_of_read (n := .reference p rel t) (by rwa [expression] at h <;> simp)
  | .reverse p rel t, _, h =>
    exists_path_of_read (n := .reverse p rel t) (by rwa [expression] at h <;> simp)
  | .manyMany p rel t, _, h =>
    exists_path_of_read (n := .manyMany p rel t) (by rwa [expression] at h <;> simp)

/-- What an expression names has a place. -/
theorem exists_path_of_expression (hw : n.Within m) (hn : n.isName = true)
    (h : r.expression m = .ok r') : ∃ path, n.path? = some path := by
  induction hw generalizing r r' with
  | self => exact exists_path_of_name hn h
  | operand hm _ ih =>
    rw [expression, expressions_eq_foldlM] at h
    obtain ⟨r₁, r₂, h1⟩ := foldlM_step_of_mem hm h
    exact ih h1

theorem exists_path_of_select (h : r.select n = .ok r') : ∃ path, n.path? = some path := by
  unfold select at h
  split at h
  · obtain ⟨path, hp⟩ := exists_path_of_read h
    exact ⟨path, hp⟩
  · split at h
    · exact exists_path_of_read h
    · cases h

/-- A node that is selected is a column, a table or a relation. -/
theorem isName_of_select (h : r.select n = .ok r') :
    n.isName = true ∧ ∀ p name, n ≠ .calculated p name := by
  cases n <;> simp_all [select, Node.isTableLike, Node.isName]

/-- What the lists of a query hold beside expressions. -/
theorem mem_lists_cases {q : Query} (h : ofQuery? q = .ok r) (hm : m ∈ q.nodes) :
    (m.isName = true ∧ (∃ path, m.path? = some path) ∧ ∀ p name, m ≠ .calculated p name) ∨
      m ∈ q.expressions ∧ ∃ r₁ r₂, expression r₁ m = .ok r₂ := by
  obtain ⟨t, r₁, r₂, r₃, r₄, r₅, r₆, hroot, h1, h2, h3, h4, h5, h6, h7, -⟩ := ofQuery?_cases h
  rw [expressions_eq_foldlM] at h4 h5 h6
  have hgroup : ∀ g ∈ q.groupBys, ∃ p c path, g = .column p c ∧ g.path? = some path := by
    intro g hg
    obtain ⟨_, _, h1⟩ := foldlM_step_of_mem hg h1
    obtain ⟨p, c, rfl, hr⟩ := groupBy_cases h1
    obtain ⟨path, hp⟩ := exists_path_of_read hr
    exact ⟨p, c, path, rfl, hp⟩
  simp only [QueryOf.nodes, List.mem_cons, List.mem_append, List.mem_flatMap, List.not_mem_nil,
    or_false] at hm
  rcases hm with rfl | ((((hm | hm) | hm) | hm) | hm) | ⟨k, hk, rfl | rfl⟩
  · exact .inl ⟨by rw [hroot]; rfl, ⟨_, by rw [hroot]; rfl⟩, by simp [hroot]⟩
  · obtain ⟨p, c, path, rfl, hp⟩ := hgroup m hm
    exact .inl ⟨rfl, ⟨path, hp⟩, by simp⟩
  · left
    split at h2
    · obtain ⟨g, hg, halike⟩ := (selectGrouped_fold _ h2).2 m hm
      obtain ⟨p, c, path, rfl, hp⟩ := hgroup g hg
      obtain ⟨p', c', rfl⟩ : ∃ p' c', m = .column p' c' := by
        cases m <;> simp_all [Node.alike]
      exact ⟨rfl, ⟨path, (Node.path?_eq_of_alike halike).symm.trans hp⟩, by simp⟩
    · obtain ⟨_, _, h2⟩ := foldlM_step_of_mem hm h2
      obtain ⟨hname, hne⟩ := isName_of_select h2
      exact ⟨hname, exists_path_of_select h2, hne⟩
  · exact .inr ⟨by simp [QueryOf.expressions, hm], foldlM_step_of_mem hm h4⟩
  · exact .inr ⟨by simp [QueryOf.expressions, hm], foldlM_step_of_mem hm h5⟩
  · exact .inr ⟨by simp [QueryOf.expressions, hm], foldlM_step_of_mem hm h6⟩
  · obtain ⟨_, _, h7⟩ := foldlM_step_of_mem hk h7
    obtain ⟨r₁, r₂, hlike, ht, -⟩ := declare_cases h7
    refine .inl ⟨?_, exists_path_of_ensure ht, ?_⟩ <;> cases hc : k.target <;>
      simp_all [Node.isTableLike, Node.isName]
  · obtain ⟨_, _, h7⟩ := foldlM_step_of_mem hk h7
    obtain ⟨r₁, r₂, -, -, he, -⟩ := declare_cases h7
    exact .inr ⟨List.mem_append_right _ (List.mem_map_of_mem hk), r₁, r₂, he⟩

/-- The places that a query mentions are joined. -/
theorem exists_join_of_path {q : Query} (h : ofQuery? q = .ok r) (hm : q.Mentions n) {path : Path}
    (hp : n.path? = some path) : ∃ j ∈ r.order, j.path = path := by
  obtain ⟨m, hm, hw⟩ := hm
  obtain ⟨-, -, -, -, hpaths⟩ := ofQuery?_adds h
  exact mem_paths_iff.1 ((hpaths path).2 ⟨Node.path?_ne_nil hp, path,
    List.mem_flatMap.2 ⟨m, hm, hw.mem_placesRead hp⟩, List.prefix_rfl⟩)

/-- **Names.** What a query names is joined. -/
theorem exists_join_of_name {q : Query} (h : ofQuery? q = .ok r) (hm : q.Mentions n)
    (hn : n.isName = true) : ∃ j ∈ r.order, n.path? = some j.path := by
  have hpath : ∃ path, n.path? = some path := by
    obtain ⟨m, hm, hw⟩ := hm
    rcases mem_lists_cases h hm with ⟨hname, hp, -⟩ | ⟨-, _, _, he⟩
    · exact hw.eq hname ▸ hp
    · exact exists_path_of_expression hw hn he
  obtain ⟨path, hp⟩ := hpath
  obtain ⟨j, hj, rfl⟩ := exists_join_of_path h hm hp
  exact ⟨j, hj, hp⟩

/-! ## What is referred to is declared -/

/-- The calculations of `n` are noted behind those of `r`. -/
structure Recalls (n : Noted) (r r' : Reads) : Prop where
  calculated : r'.calculated = r.calculated ++ n.calculated
  calculations : r'.calculations = r.calculations ++ n.calculations

theorem Recalls.of_nothing {n : Noted} (hc : n.calculated = []) (hd : n.calculations = []) :
    Recalls n r r := ⟨by rw [hc, List.append_nil], by rw [hd, List.append_nil]⟩

theorem Recalls.and {a b : Noted} {r₁ r₂ r₃ : Reads} (ha : Recalls a r₁ r₂)
    (hb : Recalls b r₂ r₃) : Recalls (a.and b) r₁ r₃ where
  calculated := by rw [hb.calculated, ha.calculated, List.append_assoc]; rfl
  calculations := by rw [hb.calculations, ha.calculations, List.append_assoc]; rfl

theorem foldlM_recalls {α : Type} {f : Reads → α → Except QueryFault Reads} {note : α → Noted} :
    ∀ {as : List α} {r r' : Reads}, (∀ a ∈ as, ∀ r r', f r a = .ok r' → Recalls (note a) r r') →
      as.foldlM f r = .ok r' → Recalls (.all note as) r r'
  | [], r, r', _, h => by rw [foldlM_nil_eq_ok_iff] at h; exact h ▸ .of_nothing rfl rfl
  | a :: as, r, r', hf, h => by
    obtain ⟨r₁, h1, h2⟩ := foldlM_cons_eq_ok_iff.1 h
    exact (hf a List.mem_cons_self r r₁ h1).and
      (foldlM_recalls (fun b hb => hf b (List.mem_cons_of_mem _ hb)) h2)

theorem ensure_recalls (h : r.ensure n = .ok r') : Recalls (.way n) r r' := by
  obtain ⟨-, -, hc, hd⟩ := ensure_keeps h
  exact ⟨by rw [hc]; exact (List.append_nil _).symm, by rw [hd]; exact (List.append_nil _).symm⟩

theorem read_recalls {selected : Bool} {columns : Table → List Column} {noted : Noted}
    (hc : noted.calculated = []) (hd : noted.calculations = [])
    (h : r.read n selected columns = .ok r') : Recalls noted r r' := by
  obtain ⟨r₁, h1, h2⟩ := bind_eq_ok_iff.1 h
  obtain ⟨-, -, hc', hd'⟩ := ensure_keeps h1
  have hkeeps : r'.calculated = r₁.calculated ∧ r'.calculations = r₁.calculations := by
    split at h2 <;> cases h2 <;> exact ⟨rfl, rfl⟩
  exact ⟨by rw [hkeeps.1, hc', hc, List.append_nil], by rw [hkeeps.2, hd', hd, List.append_nil]⟩

mutual

theorem expression_recalls {r r' : Reads} :
    ∀ {n : Node}, r.expression n = .ok r' → Recalls n.noted r r'
  | .column p c, h => by
    rw [Node.noted]
    exact read_recalls (n := p) rfl rfl (by rwa [expression] at h)
  | .calculated p name, h => by
    rw [expression] at h
    obtain ⟨r₁, h1, h2⟩ := bind_eq_ok_iff.1 h
    obtain ⟨path, hp⟩ := exists_path_of_ensure h1
    obtain ⟨-, -, hc, hd⟩ := ensure_keeps h1
    cases h2
    rw [Node.noted, hp]
    exact ⟨by rw [hc]; rfl, by rw [hd]; exact (List.append_nil _).symm⟩
  | .operation op operands, h => by
    rw [expression] at h
    rw [Node.noted]
    exact expressions_recalls h
  | .value v, h => by
    rw [Node.noted]
    simp only [expression, Except.ok.injEq] at h; exact h ▸ .of_nothing rfl rfl
  | .subquery q, h => by
    rw [Node.noted]
    simp only [expression, Except.ok.injEq] at h; exact h ▸ .of_nothing rfl rfl
  | .table t, h => by
    rw [Node.noted] <;> try simp
    exact read_recalls (n := .table t) rfl rfl (by rwa [expression] at h <;> simp)
  | .reference p rel t, h => by
    rw [Node.noted] <;> try simp
    exact read_recalls (n := .reference p rel t) rfl rfl (by rwa [expression] at h <;> simp)
  | .reverse p rel t, h => by
    rw [Node.noted] <;> try simp
    exact read_recalls (n := .reverse p rel t) rfl rfl (by rwa [expression] at h <;> simp)
  | .manyMany p rel t, h => by
    rw [Node.noted] <;> try simp
    exact read_recalls (n := .manyMany p rel t) rfl rfl (by rwa [expression] at h <;> simp)

theorem expressions_recalls {r r' : Reads} :
    ∀ {ns : List Node}, r.expressions ns = .ok r' → Recalls (Node.notedAll ns) r r'
  | [], h => by
    rw [Node.notedAll]
    simp only [expressions, Except.ok.injEq] at h; exact h ▸ .of_nothing rfl rfl
  | n :: rest, h => by
    rw [expressions] at h
    obtain ⟨r₁, h1, h2⟩ := bind_eq_ok_iff.1 h
    rw [Node.notedAll]
    exact (expression_recalls h1).and (expressions_recalls h2)

end

theorem groupBy_recalls (h : r.groupBy n = .ok r') : Recalls n.notedGroupBy r r' := by
  obtain ⟨p, c, rfl, hr⟩ := groupBy_cases h
  exact read_recalls (n := p) rfl rfl hr

theorem select_recalls (h : r.select n = .ok r') : Recalls n.notedSelect r r' := by
  cases n <;> simp only [select, Node.isTableLike, if_true, if_false, Bool.false_eq_true,
    reduceCtorEq] at h
  case column p c => exact read_recalls (n := p) rfl rfl h
  all_goals exact read_recalls rfl rfl h

theorem selectGrouped_recalls {groupBys : List Node} (h : r.selectGrouped groupBys n = .ok r') :
    Recalls (n.notedGrouped groupBys) r r' := by
  unfold selectGrouped at h
  split at h
  · cases h
    exact .of_nothing rfl rfl
  · cases h

theorem declare_recalls {c : Calculation Node} (h : r.declare c = .ok r') :
    Recalls c.noted r r' := by
  obtain ⟨r₁, r₂, hlike, h1, h2, hr⟩ := declare_cases h
  obtain ⟨path, hp⟩ := exists_path_of_ensure h1
  have hexpr := (ensure_recalls h1).and (expression_recalls h2)
  rw [Calculation.noted, if_pos hlike]
  rcases hr with ⟨hnone, -⟩ | ⟨path', hp', -, rfl⟩
  · rw [hp] at hnone
    cases hnone
  · cases hp.symm.trans hp'
    rw [hp]
    exact hexpr.and ⟨(List.append_nil _).symm, rfl⟩

/-- The calculations that a query notes, whatever schema its nodes are over. -/
theorem ofQuery?_recalls {q : Query} (h : ofQuery? q = .ok r) :
    r.calculated = q.noted.calculated ∧ r.calculations = q.noted.calculations := by
  obtain ⟨t, r₁, r₂, r₃, r₄, r₅, r₆, hroot, h1, h2, h3, h4, h5, h6, h7, -⟩ := ofQuery?_cases h
  have c1 : Recalls (.all Node.notedGroupBy q.groupBys) _ r₁ :=
    foldlM_recalls (fun _ _ _ _ h => groupBy_recalls h) h1
  have c2 : Recalls (.all (if !q.groupBys.isEmpty then Node.notedGrouped q.groupBys
      else Node.notedSelect) q.selects) r₁ r₂ := by
    cases hg : !q.groupBys.isEmpty with
    | true =>
      rw [hg, if_pos rfl] at h2
      exact foldlM_recalls (fun _ _ _ _ h => selectGrouped_recalls h) h2
    | false =>
      rw [hg, if_neg Bool.false_ne_true] at h2
      exact foldlM_recalls (fun _ _ _ _ h => select_recalls h) h2
  have c3 : Recalls (if q.selects.isEmpty && !(!q.groupBys.isEmpty) then
      .read q.root true (·.columns) else .nothing) r₂ r₃ := by
    split at h3 <;> rename_i hall
    · rw [if_pos hall]
      exact read_recalls rfl rfl h3
    · rw [if_neg hall]
      cases h3
      exact .of_nothing rfl rfl
  have c4 := expressions_recalls h4
  have c5 := expressions_recalls h5
  have c6 := expressions_recalls h6
  have c7 : Recalls (.all Calculation.noted q.calculations) r₆ r :=
    foldlM_recalls (fun _ _ _ _ h => declare_recalls h) h7
  rw [Node.notedAll_eq] at c4 c5 c6
  obtain ⟨hc, hd⟩ := ((((((c1.and c2).and c3).and c4).and c5).and c6).and c7)
  exact ⟨hc, hd⟩

theorem isTableLike_target {q : Query} (h : ofQuery? q = .ok r) {k : Calculation Node}
    (hk : k ∈ q.calculations) : k.target.isTableLike = true := by
  obtain ⟨_, _, _, _, _, _, _, -, -, -, -, -, -, -, h7, -⟩ := ofQuery?_cases h
  obtain ⟨_, _, h7⟩ := foldlM_step_of_mem hk h7
  obtain ⟨_, _, hlike, -⟩ := declare_cases h7
  exact hlike

/-- What is declared stands among the calculations of the query, at the place of its target. -/
theorem mem_calculations_iff {q : Query} (h : ofQuery? q = .ok r) {d : Declared} :
    d ∈ r.calculations ↔ ∃ k ∈ q.calculations, k.target.path? = some d.path ∧
      k.name = d.name ∧ k.expression = d.expression := by
  rw [(ofQuery?_recalls h).2, QueryOf.mem_noted_calculations_iff]
  exact exists_congr fun k => and_congr_right fun hk => and_iff_right (isTableLike_target h hk)

/-- A query refers to what its expressions refer to. -/
theorem mem_noted_calculated {q : Query} (h : ofQuery? q = .ok r) (hm : m ∈ q.expressions)
    {x : Path × String} (hx : x ∈ m.noted.calculated) : x ∈ q.noted.calculated := by
  have hlist : ∀ ns : List Node, m ∈ ns → x ∈ (Noted.all Node.noted ns).calculated := by
    intro ns hns
    rw [(Noted.all_eq ns).2.2.1]
    exact List.mem_flatMap.2 ⟨m, hns, hx⟩
  simp only [QueryOf.expressions, List.mem_append, List.mem_map (l := q.calculations)] at hm
  simp only [QueryOf.noted, Noted.and, List.mem_append]
  rcases hm with ((hm | hm) | hm) | ⟨k, hk, rfl⟩
  · exact .inl (.inl (.inl (.inr (hlist _ hm))))
  · exact .inl (.inl (.inr (hlist _ hm)))
  · exact .inl (.inr (hlist _ hm))
  · refine .inr ?_
    rw [(Noted.all_eq _).2.2.1, List.mem_flatMap]
    refine ⟨k, hk, ?_⟩
    rw [Calculation.noted, if_pos (isTableLike_target h hk)]
    exact List.mem_append_left _ (List.mem_append_right _ hx)

/-- **References.** The calculations that a query refers to are declared where they are looked
for. -/
theorem declared_of_mentions {q : Query} (h : ofQuery? q = .ok r) {p : Node} {name : String}
    (hm : q.Mentions (.calculated p name)) :
    ∃ d ∈ r.calculations, p.path? = some d.path ∧ d.name = name := by
  obtain ⟨j, -, hp⟩ := exists_join_of_name h hm rfl
  obtain ⟨m, hm, hw⟩ := hm
  have hexpr : m ∈ q.expressions := by
    rcases mem_lists_cases h hm with ⟨hname, -, hne⟩ | ⟨hexpr, -⟩
    · exact absurd (hw.eq hname).symm (hne p name)
    · exact hexpr
  have hnoted : (j.path, name) ∈ r.calculated := by
    rw [(ofQuery?_recalls h).1]
    exact mem_noted_calculated h hexpr (hw.mem_calculated hp)
  obtain ⟨t, r₁, r₂, r₃, r₄, r₅, r₆, -, -, -, -, -, -, -, -, hcheck⟩ := ofQuery?_cases h
  obtain ⟨d, hd, hpath, hname⟩ := checkCalculated_eq_ok_iff.1 hcheck _ hnoted
  exact ⟨d, hd, hpath ▸ hp, hname⟩

end Reads

end RecordGraph
