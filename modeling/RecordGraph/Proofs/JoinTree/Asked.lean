import RecordGraph.Proofs.JoinTree.Named
import RecordGraph.Proofs.JoinTree.NamesRead

/-!
# What a query asks for

The walk of a query marks columns, element by element. Which columns it marks, which elements give
objects, and which columns are part of the result, can all be told from the query's own lists.

**Results.**
* `QueryOf.AsksFor`: the columns that a query asks for.
* `QueryOf.mem_noted_iff`: just these are marked.
* `JoinTree.AsAsked`: what is selected, materialized and emitted.
* `JoinTree.compile_as_asked`: compiled trees are as asked, and a grouped query selects nothing that
  it does not group by.
-/
namespace RecordGraph

/-- The node is a column at a path. -/
def Node.IsColumnAt (n : Node) (path : Path) (c : Column) : Prop :=
  ∃ p, n = .column p c ∧ p.path? = some path

/-- A query asks for a column of the table at a path: it groups by the column, or it groups by
nothing and selects the column or its table, or selects nothing and starts there. -/
inductive QueryOf.AsksFor (q : Query) (path : Path) (c : Column) : Prop where
  | grouped {g : Node} : g ∈ q.groupBys → g.IsColumnAt path c → AsksFor q path c
  | column {n : Node} : q.groupBys = [] → n ∈ q.selects → n.IsColumnAt path c → AsksFor q path c
  | table {n : Node} : q.groupBys = [] → n ∈ q.selects → n.isTableLike = true →
      n.path? = some path → AsksFor q path c
  | root : q.groupBys = [] → q.selects = [] → q.root.path? = some path → AsksFor q path c

theorem QueryOf.asksFor_iff {q : Query} {path : Path} {c : Column} : q.AsksFor path c ↔
    (∃ g ∈ q.groupBys, g.IsColumnAt path c) ∨ q.groupBys = [] ∧
      ((∃ n ∈ q.selects, n.IsColumnAt path c ∨ n.isTableLike = true ∧ n.path? = some path) ∨
        q.selects = [] ∧ q.root.path? = some path) := by
  constructor
  · rintro (⟨hg, h⟩ | ⟨hg, hn, h⟩ | ⟨hg, hn, hlike, h⟩ | ⟨hg, hs, h⟩)
    · exact .inl ⟨_, hg, h⟩
    · exact .inr ⟨hg, .inl ⟨_, hn, .inl h⟩⟩
    · exact .inr ⟨hg, .inl ⟨_, hn, .inr ⟨hlike, h⟩⟩⟩
    · exact .inr ⟨hg, .inr ⟨hs, h⟩⟩
  · rintro (⟨g, hg, h⟩ | ⟨hg, ⟨n, hn, h | ⟨hlike, h⟩⟩ | ⟨hs, h⟩⟩)
    · exact .grouped hg h
    · exact .column hg hn h
    · exact .table hg hn hlike h
    · exact .root hg hs h

/-! ## What is marked -/

namespace Noted

theorem mem_columns_all {f : α → Noted} {as : List α} {d : ColumnRead} :
    d ∈ (all f as).columns ↔ ∃ a ∈ as, d ∈ (f a).columns := by
  rw [(all_eq as).2.1, List.mem_flatMap]

theorem mem_columns_read {n : Node} {t : Table} (ht : n.target? = some t) {selected marked : Bool}
    {columns : Table → List Column} {path : Path} {c : Column} :
    ⟨path, c, marked⟩ ∈ (read n selected columns).columns ↔
      n.path? = some path ∧ c ∈ columns t ∧ marked = selected := by
  simp only [read, ht, Option.map_some, Option.getD_some, List.mem_flatMap, Option.mem_toList,
    List.mem_map, ColumnRead.mk.injEq]
  constructor
  · rintro ⟨_, hp, _, hc, rfl, rfl, rfl⟩
    exact ⟨hp, hc, rfl⟩
  · rintro ⟨hp, hc, rfl⟩
    exact ⟨path, hp, c, hc, rfl, rfl, rfl⟩

/-- Reading without selecting marks nothing. -/
theorem unmarked_read {n : Node} {columns : Table → List Column} :
    ∀ d ∈ (read n false columns).columns, d.selected = false := by
  intro d hd
  obtain ⟨_, -, hd⟩ := List.mem_flatMap.1 hd
  obtain ⟨_, -, rfl⟩ := List.mem_map.1 hd
  rfl

end Noted

namespace Node

mutual

/-- Expressions mark nothing. -/
theorem unmarked_noted : ∀ (n : Node), ∀ d ∈ n.noted.columns, d.selected = false
  | .column p c => by rw [noted]; exact Noted.unmarked_read
  | .calculated p name => by rw [noted]; exact fun _ h => nomatch h
  | .operation op operands => by rw [noted]; exact unmarked_notedAll operands
  | .value v => by rw [noted]; exact fun _ h => nomatch h
  | .subquery q => by rw [noted]; exact fun _ h => nomatch h
  | .table t => by rw [noted] <;> first | exact Noted.unmarked_read | simp
  | .reference p r t => by rw [noted] <;> first | exact Noted.unmarked_read | simp
  | .reverse p r t => by rw [noted] <;> first | exact Noted.unmarked_read | simp
  | .manyMany p r t => by rw [noted] <;> first | exact Noted.unmarked_read | simp

theorem unmarked_notedAll : ∀ (ns : List Node), ∀ d ∈ (notedAll ns).columns, d.selected = false
  | [] => by rw [notedAll]; exact fun _ h => nomatch h
  | n :: rest => by
    rw [notedAll]
    intro d hd
    rcases List.mem_append.1 hd with hd | hd
    · exact unmarked_noted n d hd
    · exact unmarked_notedAll rest d hd

end

variable {s : Schema} {n : Node} {path : Path} {c : Column}

/-- A column marks itself. -/
theorem mem_column_iff {p : Node} {c' : Column} (hn : (column p c').Over s) :
    ⟨path, c, true⟩ ∈ (Noted.read p true fun _ => [c']).columns ↔
      (column p c').IsColumnAt path c := by
  obtain ⟨-, t, ht, -⟩ := hn.of_column
  rw [Noted.mem_columns_read ht, List.mem_singleton]
  constructor
  · rintro ⟨hp, rfl, -⟩
    exact ⟨p, rfl, hp⟩
  · rintro ⟨_, he, hp⟩
    cases he
    exact ⟨hp, rfl, rfl⟩

theorem mem_notedGroupBy_iff (hn : n.Over s) :
    ⟨path, c, true⟩ ∈ n.notedGroupBy.columns ↔ n.IsColumnAt path c := by
  cases n with
  | column p c' => exact mem_column_iff hn
  | _ => exact iff_of_false List.not_mem_nil fun ⟨_, he, _⟩ => nomatch he

/-- A table or a relation marks all columns of the table that it leads to. -/
theorem mem_selectAll_iff (hn : n.Over s) {t : Table} (ht : n.target? = some t)
    {relation : Relation} {table : Table} (hj : s.join? path = some (relation, table))
    (hc : c ∈ table.columns) :
    ⟨path, c, true⟩ ∈ (Noted.read n true (·.columns)).columns ↔ n.path? = some path := by
  rw [Noted.mem_columns_read ht]
  refine ⟨fun h => h.1, fun hp => ⟨hp, ?_, rfl⟩⟩
  obtain ⟨path', hp', hj'⟩ := hn.join?_eq ht
  cases hp.symm.trans hp'
  cases hj.symm.trans hj'
  exact hc

theorem target?_of_isTableLike (h : n.isTableLike = true) : ∃ t, n.target? = some t := by
  cases n <;> first | exact ⟨_, rfl⟩ | cases h

theorem mem_notedSelect_iff (hn : n.Over s) {relation : Relation} {table : Table}
    (hj : s.join? path = some (relation, table)) (hc : c ∈ table.columns) :
    ⟨path, c, true⟩ ∈ n.notedSelect.columns ↔
      n.IsColumnAt path c ∨ n.isTableLike = true ∧ n.path? = some path := by
  cases hlike : n.isTableLike with
  | true =>
    obtain ⟨t, ht⟩ := target?_of_isTableLike hlike
    have hnoted : n.notedSelect = .read n true (·.columns) := by
      cases n <;> first | rfl | cases hlike
    rw [hnoted, mem_selectAll_iff hn ht hj hc]
    constructor
    · exact fun h => .inr ⟨rfl, h⟩
    · rintro (⟨_, rfl, -⟩ | ⟨-, h⟩)
      · cases hlike
      · exact h
  | false =>
    simp only [Bool.false_eq_true, false_and, or_false]
    cases n with
    | column p c' => exact mem_column_iff hn
    | _ => first
      | exact iff_of_false List.not_mem_nil fun ⟨_, he, _⟩ => nomatch he
      | cases hlike

end Node

/-- Calculations mark nothing. -/
theorem Calculation.unmarked_noted (k : Calculation Node) :
    ∀ d ∈ k.noted.columns, d.selected = false := by
  rw [Calculation.noted]
  split
  · simpa [Noted.and, Noted.way, Noted.nothing] using k.expression.unmarked_noted
  · intro _ h
    cases h

/-- What is marked along a list that marks nothing. -/
theorem Noted.notMem_all {f : α → Noted} {as : List α}
    (h : ∀ a ∈ as, ∀ d ∈ (f a).columns, d.selected = false) {path : Path} {c : Column} :
    ⟨path, c, true⟩ ∉ (all f as).columns := by
  rw [mem_columns_all]
  rintro ⟨a, ha, hd⟩
  cases h a ha _ hd

variable {s : Schema} {q : Query} {path : Path} {c : Column}

/-- What stands at the place of a column is a table with that column. -/
theorem Node.IsColumnAt.join? {n : Node} (h : n.IsColumnAt path c) (hn : n.Over s) :
    ∃ relation table, s.join? path = some (relation, table) ∧ c ∈ table.columns := by
  obtain ⟨p, rfl, hp⟩ := h
  obtain ⟨hpo, t, ht, hc⟩ := hn.of_column
  obtain ⟨path', hp', hjoin⟩ := hpo.join?_eq ht
  cases hp.symm.trans hp'
  exact ⟨_, t, hjoin, hc⟩

/-- **What is marked.** The walk marks the columns that the query asks for. -/
theorem QueryOf.mem_noted_iff (hq : q.Over s) {root : Table} (hroot : q.root = .table root)
    {relation : Relation} {table : Table} (hj : s.join? path = some (relation, table))
    (hc : c ∈ table.columns) : ⟨path, c, true⟩ ∈ q.noted.columns ↔ q.AsksFor path c := by
  have p := hq.parts
  have hgroup : ⟨path, c, true⟩ ∈ (Noted.all Node.notedGroupBy q.groupBys).columns ↔
      ∃ g ∈ q.groupBys, g.IsColumnAt path c := by
    rw [Noted.mem_columns_all]
    exact exists_congr fun g => and_congr_right fun hg =>
      Node.mem_notedGroupBy_iff (p.groupBys g hg)
  have hselect : ⟨path, c, true⟩ ∈ (Noted.all Node.notedSelect q.selects).columns ↔
      ∃ n ∈ q.selects, n.IsColumnAt path c ∨ n.isTableLike = true ∧ n.path? = some path := by
    rw [Noted.mem_columns_all]
    exact exists_congr fun n => and_congr_right fun hn =>
      Node.mem_notedSelect_iff (p.selects n hn) hj hc
  have hall := Node.mem_selectAll_iff (c := c) p.root (congrArg Node.target? hroot) hj hc
  -- the other lists hold expressions
  simp only [QueryOf.noted, Noted.and, List.mem_append,
    Noted.notMem_all fun n _ => Node.unmarked_noted n,
    Noted.notMem_all fun k _ => Calculation.unmarked_noted k, or_false, hgroup]
  rw [QueryOf.asksFor_iff]
  by_cases hg : q.groupBys = []
  · by_cases hs : q.selects = []
    · simp [hg, hs, hall, Noted.all, Noted.nothing]
    · simp [hg, hs, hselect, Noted.nothing]
  · simp [hg, Node.all_notedGrouped, Noted.nothing]

theorem Node.IsColumnAt.path? {n : Node} (h : n.IsColumnAt path c) : n.path? = some path := by
  obtain ⟨p, rfl, hp⟩ := h
  exact hp

theorem QueryOf.target_mem_nodes {k : Calculation Node} (hk : k ∈ q.calculations) :
    k.target ∈ q.nodes := by
  simp only [nodes, List.mem_cons, List.mem_append, List.mem_flatMap]
  exact .inr (.inr ⟨k, hk, .inl rfl⟩)

/-- A query asks for columns at the places of its nodes. -/
theorem QueryOf.AsksFor.exists_node (h : q.AsksFor path c) :
    ∃ n ∈ q.nodes, n.path? = some path := by
  rcases h with ⟨hg, h⟩ | ⟨-, hn, h⟩ | ⟨-, hn, -, h⟩ | ⟨-, -, h⟩
  · exact ⟨_, by simp [nodes, hg], h.path?⟩
  · exact ⟨_, by simp [nodes, hn], h.path?⟩
  · exact ⟨_, by simp [nodes, hn], h⟩
  · exact ⟨_, by simp [nodes], h⟩

namespace Reads

variable {r : Reads} {keys : Bool} {j : Join}

theorem Over.isSelected_iff (ho : r.Over s) (hs : Schema.SoundTables s.tables) (hj : j ∈ r.order)
    (hc : c ∈ j.table.columns) :
    r.isSelected j.path c = true ↔ ⟨j.path, c, true⟩ ∈ r.columns := by
  have hjoin := ho.joins j (List.mem_cons.2 (mem_order.1 hj))
  rw [isSelected, List.any_eq_true]
  constructor
  · rintro ⟨⟨path, d, selected⟩, hd, hsel⟩
    simp only [Bool.and_eq_true, beq_iff_eq] at hsel
    obtain ⟨⟨rfl, rfl⟩, hname⟩ := hsel
    obtain ⟨relation, t, hjoin', hdt⟩ := ho.columns _ hd
    cases hjoin.symm.trans hjoin'
    obtain rfl := (hs.sound _ (Schema.mem_of_join? hjoin)).column_eq hdt hc hname
    exact hd
  · exact fun h => ⟨_, h, by simp⟩

/-- The columns of a join are those that are read, and with `keys` those that identify objects. -/
theorem Over.mem_columnsOf_iff (ho : r.Over s) (hs : Schema.SoundTables s.tables)
    (hj : j ∈ r.order) (hc : c ∈ j.table.columns) : c ∈ r.columnsOf keys j ↔
      (∃ d ∈ r.columns, d.path = j.path ∧ d.column = c) ∨
        keys = true ∧ (c = j.table.primaryKey ∨ j.table.lockColumn? = some c) := by
  have hjoin := ho.joins j (List.mem_cons.2 (mem_order.1 hj))
  have hlisted : c ∈ r.columnsOf keys j ↔ c ∈ (r.columns.filter (·.path == j.path)).map (·.column)
      ++ if keys then j.table.primaryKey :: j.table.lockColumn?.toList else [] := by
    rw [columnsOf, List.mem_mergeSort]
    refine ⟨(distinctColumns_spec _).2.1 c, fun h => ?_⟩
    -- the column listed under the name of `c` is `c`
    obtain ⟨d, hd, hname⟩ := (distinctColumns_spec _).2.2 c h
    have hdj : d ∈ r.columnsOf keys j := List.mem_mergeSort.2 hd
    have hdt := columnsOf_mem ho hj hdj
    obtain rfl := (hs.sound _ (Schema.mem_of_join? hjoin)).column_eq hdt hc hname
    exact hd
  rw [hlisted, List.mem_append, List.mem_map]
  simp only [List.mem_filter, beq_iff_eq, and_assoc]
  cases keys <;> simp

end Reads

namespace Element

/-- The query asks for a column of the element. -/
def Selects (e : Element) (c : Column) : Prop := ∃ o ∈ e.columns, o.column = c ∧ o.selected = true

/-- A column of the element is part of the result. -/
def Emits (e : Element) (c : Column) : Prop := ∃ o ∈ e.columns, o.column = c ∧ o.emitted = true

end Element

namespace JoinTree

/-- The columns in the result, with the paths of their elements. -/
def emittedColumns (t : JoinTree) : List (Path × Column) :=
  t.elements.flatMap fun e => e.emitted.map fun o => (e.path, o.column)

/-- A tree selects, materializes and emits what its query asks for. -/
structure AsAsked (projection : Projection) (q : Query) (t : JoinTree) : Prop where
  root : ∀ e ∈ t.elements, q.root.path? = some e.path ↔ e = t.root
  selected : ∀ e ∈ t.elements, ∀ c ∈ e.table.columns, e.Selects c ↔ q.AsksFor e.path c
  calculated : ∀ e ∈ t.elements, ∀ name, (∃ k ∈ e.calculations, k.name = name) ↔
    ∃ k ∈ q.calculations, k.target.path? = some e.path ∧ k.name = name
  /-- An element gives objects where something in the tree below it is asked for. -/
  materialized : ∀ e ∈ t.elements, e.materialized = true ↔ e = t.root ∨
    ∃ k ∈ t.elements, t.Under e.id k.id ∧ ((∃ c, k.Selects c) ∨ k.calculations ≠ [])
  emitted : ∀ e ∈ t.elements, ∀ c ∈ e.table.columns, e.Emits c ↔ e.Selects c ∨
    e.materialized = true ∧ projection = .objects ∧ q.groupBys = [] ∧ q.distinct = false ∧
      (c = e.table.primaryKey ∨ e.table.lockColumn? = some c)

/-- Every element that gives objects tells which, and in which version. No other shows anything. -/
def Identified (t : JoinTree) : Prop :=
  ∀ e ∈ t.elements, if e.materialized then
      e.Emits e.table.primaryKey ∧ ∀ c, e.table.lockColumn? = some c → e.Emits c
    else e.emitted = []

section
variable {r : Reads} (ho : r.Over s) (hs : Schema.SoundTables s.tables) {lead : String}
  {keys : Bool} {j : Join} (hj : j ∈ r.order)

theorem calculations_ne_nil_iff : (r.element lead keys j).calculations ≠ [] ↔
    ∃ d ∈ r.calculations, d.path = j.path := by
  simp [Reads.element]

include ho hj

theorem selects_mem (h : (r.element lead keys j).Selects c) : c ∈ j.table.columns := by
  obtain ⟨_, hm, rfl, -⟩ := h
  obtain ⟨d, hd, rfl⟩ := List.mem_map.1 hm
  exact Reads.columnsOf_mem ho hj hd

include hs

theorem selects_iff (hc : c ∈ j.table.columns) :
    (r.element lead keys j).Selects c ↔ ⟨j.path, c, true⟩ ∈ r.columns := by
  rw [← ho.isSelected_iff hs hj hc]
  constructor
  · rintro ⟨_, hm, rfl, hsel⟩
    obtain ⟨d, -, rfl⟩ := List.mem_map.1 hm
    exact hsel
  · intro hsel
    have hread := (ho.isSelected_iff hs hj hc).1 hsel
    have hlisted : c ∈ r.columnsOf keys j :=
      (ho.mem_columnsOf_iff hs hj hc).2 (.inl ⟨_, hread, rfl, rfl⟩)
    exact ⟨_, List.mem_map_of_mem hlisted, rfl, hsel⟩

theorem emits_iff (hc : c ∈ j.table.columns) : (r.element lead keys j).Emits c ↔
    (r.element lead keys j).Selects c ∨ r.materialized j.path = true ∧ keys = true ∧
      (c = j.table.primaryKey ∨ j.table.lockColumn? = some c) := by
  have hjoin := ho.joins j (List.mem_cons.2 (Reads.mem_order.1 hj))
  have hsound := hs.sound _ (Schema.mem_of_join? hjoin)
  have hid := hsound.identifies_iff hc
  constructor
  · rintro ⟨_, hm, rfl, hem⟩
    obtain ⟨d, hd, rfl⟩ := List.mem_map.1 hm
    rcases Bool.or_eq_true_iff.1 hem with hsel | hkey
    · exact .inl ⟨_, hm, rfl, hsel⟩
    · obtain ⟨hkey, hmat⟩ := Bool.and_eq_true_iff.1 hkey
      obtain ⟨hkeys, hkey⟩ := Bool.and_eq_true_iff.1 hkey
      exact .inr ⟨hmat, hkeys, hid.1 hkey⟩
  · rintro (⟨o, hm, hoc, hsel⟩ | ⟨hmat, rfl, hkey⟩)
    · refine ⟨o, hm, hoc, ?_⟩
      obtain ⟨d, -, rfl⟩ := List.mem_map.1 hm
      exact Bool.or_eq_true_iff.2 (.inl hsel)
    · have hlisted : c ∈ r.columnsOf true j :=
        (ho.mem_columnsOf_iff hs hj hc).2 (.inr ⟨rfl, hkey⟩)
      refine ⟨_, List.mem_map_of_mem hlisted, rfl, ?_⟩
      simp [hid.2 hkey, hmat]

end

section
variable (hs : Schema.SoundTables s.tables) (hq : q.Over s) {r : Reads}
  (hr : Reads.ofQuery? q = .ok r) {lead : String} {keys : Bool} {j : Join} (hj : j ∈ r.order)

include hq hr hj

theorem mem_columns_iff (hc : c ∈ j.table.columns) :
    ⟨j.path, c, true⟩ ∈ r.columns ↔ q.AsksFor j.path c := by
  obtain ⟨root, hroot, -⟩ := Reads.ofQuery?_adds hr
  have ho := Reads.ofQuery?_over hq hr
  rw [(Reads.ofQuery?_notes hq hr).1]
  exact QueryOf.mem_noted_iff hq hroot (ho.joins j (List.mem_cons.2 (Reads.mem_order.1 hj))) hc

omit hq hj in
/-- The calculations of a join are those that the query lists for it. -/
theorem exists_calculation_iff {name : String} :
    (∃ k ∈ (r.element lead keys j).calculations, k.name = name) ↔
      ∃ k ∈ q.calculations, k.target.path? = some j.path ∧ k.name = name := by
  have hdecl := fun d => Reads.mem_calculations_iff hr (d := d)
  simp only [Reads.element, List.mem_map, List.mem_filter, beq_iff_eq]
  constructor
  · rintro ⟨_, ⟨d, ⟨hd, hdp⟩, rfl⟩, rfl⟩
    obtain ⟨k, hk, hp, hname, -⟩ := (hdecl d).1 hd
    exact ⟨k, hk, hdp ▸ hp, hname⟩
  · rintro ⟨k, hk, hp, rfl⟩
    exact ⟨_, ⟨_, ⟨(hdecl ⟨j.path, k.name, k.expression⟩).2 ⟨k, hk, hp, rfl, rfl⟩, rfl⟩, rfl⟩, rfl⟩

omit hj in
theorem exists_join_of_marked (hd : ⟨path, c, true⟩ ∈ r.columns) :
    ∃ k ∈ r.order, k.path = path ∧ c ∈ k.table.columns := by
  have ho := Reads.ofQuery?_over hq hr
  obtain ⟨root, hroot, -⟩ := Reads.ofQuery?_adds hr
  obtain ⟨relation, table, hjoin, hc⟩ := ho.columns _ hd
  rw [(Reads.ofQuery?_notes hq hr).1, QueryOf.mem_noted_iff hq hroot hjoin hc] at hd
  obtain ⟨n, hn, hp⟩ := hd.exists_node
  obtain ⟨k, hk, rfl⟩ := Reads.exists_join_of_path hr ⟨n, hn, .self⟩ hp
  refine ⟨k, hk, rfl, ?_⟩
  cases hjoin.symm.trans (ho.joins k (List.mem_cons.2 (Reads.mem_order.1 hk)))
  exact hc

include hs
omit hj

/-- A join gives objects where something at it or further on is asked for. -/
theorem materialized_iff_exists (lead : String) (keys : Bool) : r.materialized j.path = true ↔
    j.path = r.root.path ∨ ∃ k ∈ r.order, j.path <+: k.path ∧
      ((∃ c, (r.element lead keys k).Selects c) ∨ (r.element lead keys k).calculations ≠ []) := by
  have ho := Reads.ofQuery?_over hq hr
  rw [Reads.materialized_iff]
  refine or_congr_right ⟨?_, ?_⟩
  · rintro (⟨⟨path, c, _⟩, hd, rfl, hp⟩ | ⟨d, hd, hp⟩)
    · obtain ⟨k, hk, rfl, hc⟩ := exists_join_of_marked hq hr hd
      exact ⟨k, hk, hp, .inl ⟨c, (selects_iff ho hs hk hc).2 hd⟩⟩
    · obtain ⟨k, hk, hpath, -⟩ := (Reads.mem_calculations_iff hr).1 hd
      obtain ⟨m, hm, hmp⟩ :=
        Reads.exists_join_of_path hr ⟨_, QueryOf.target_mem_nodes hk, .self⟩ hpath
      exact ⟨m, hm, hmp ▸ hp, .inr (calculations_ne_nil_iff.2 ⟨d, hd, hmp.symm⟩)⟩
  · rintro ⟨k, hk, hp, ⟨c, hsel⟩ | hcalc⟩
    · exact .inl ⟨_, (selects_iff ho hs hk (selects_mem ho hk hsel)).1 hsel, rfl, hp⟩
    · obtain ⟨d, hd, hdp⟩ := calculations_ne_nil_iff.1 hcalc
      exact .inr ⟨d, hd, hdp ▸ hp⟩

end

theorem mem_emittedColumns {t : JoinTree} :
    (path, c) ∈ t.emittedColumns ↔ ∃ e ∈ t.elements, e.path = path ∧ e.Emits c := by
  simp only [emittedColumns, List.mem_flatMap, List.mem_map, Prod.mk.injEq, Element.emitted,
    List.mem_filter]
  constructor
  · rintro ⟨e, he, o, ⟨ho, hem⟩, hp, hc⟩
    exact ⟨e, he, hp, o, ho, hc, hem⟩
  · rintro ⟨e, he, hp, o, ho, hc, hem⟩
    exact ⟨e, he, o, ⟨ho, hem⟩, hp, hc⟩

theorem emittedColumns_nodup {t : JoinTree} (ho : t.Over s)
    (hn : (t.elements.map (·.path)).Nodup) : t.emittedColumns.Nodup := by
  refine List.nodup_flatMap.2 ⟨fun e he => ?_, ?_⟩
  · have hnames := (ho.names e he).sublist (List.filter_sublist (p := (·.emitted)).map _)
    exact List.Nodup.of_map (fun o => o.2.name) (by rwa [List.map_map])
  · refine (List.Nodup.of_map _ hn).imp_of_mem fun {a b} ha hb hab p hpa hpb => hab ?_
    obtain ⟨_, -, rfl⟩ := List.mem_map.1 hpa
    obtain ⟨_, -, hpath⟩ := List.mem_map.1 hpb
    exact (List.inj_on_of_nodup_map hn hb ha (congrArg Prod.fst hpath)).symm

section
variable {projection : Projection} {lead : String} {t : JoinTree}

/-- The places that a query mentions have elements. -/
theorem compile_element (h : compile projection lead q = .ok t) {n : Node} (hn : n ∈ q.nodes)
    (hp : n.path? = some path) : ∃ e ∈ t.elements, e.path = path := by
  obtain ⟨r, keys, hr, -, -, ht⟩ := compile_cases h
  obtain ⟨j, hj, hjp⟩ := Reads.exists_join_of_path hr ⟨n, hn, .self⟩ hp
  exact ⟨_, (mem_elements ht).2 ⟨j, hj, rfl⟩, hjp⟩

theorem compile_asAsked (hs : Schema.SoundTables s.tables) (hq : q.Over s)
    (h : compile projection lead q = .ok t) : t.AsAsked projection q := by
  obtain ⟨r, keys, hr, hkeys, hroot, ht⟩ := compile_cases h
  obtain ⟨root, hqr, hrr, hc, -⟩ := Reads.ofQuery?_adds hr
  have ho := Reads.ofQuery?_over hq hr
  have hkeys : keys = true ↔ projection = .objects ∧ q.groupBys = [] ∧ q.distinct = false := by
    simp [hkeys, and_assoc]
  have hisRoot : ∀ j ∈ r.order, j.path = r.root.path ↔ r.element lead keys j = t.root := by
    intro j hj
    rw [hroot]
    refine ⟨fun hp => ?_, fun he => congrArg Element.path he⟩
    rw [Reads.idOf_inj hc hj (Reads.mem_order.2 (.inl rfl)) (congrArg r.idOf hp)]
  constructor <;> intro e he <;> obtain ⟨j, hj, rfl⟩ := (mem_elements ht).1 he
  case root =>
    have hpath : q.root.path? = some r.root.path := by rw [hqr, hrr]; rfl
    rw [hpath, Option.some.injEq, ← hisRoot j hj, eq_comm]
    rfl
  case selected =>
    exact fun c hcm => (selects_iff ho hs hj hcm).trans (mem_columns_iff hq hr hj hcm)
  case calculated => exact fun name => exists_calculation_iff hr
  case materialized =>
    refine (materialized_iff_exists hs hq hr lead keys).trans (or_congr (hisRoot j hj) ⟨?_, ?_⟩)
    · rintro ⟨k, hk, hp, hasked⟩
      exact ⟨_, (mem_elements ht).2 ⟨k, hk, rfl⟩, (under_iff hc ht hj).2 ⟨k, hk, rfl, hp⟩, hasked⟩
    · rintro ⟨_, he, hunder, hasked⟩
      obtain ⟨k, hk, rfl⟩ := (mem_elements ht).1 he
      obtain ⟨m, hm, hid, hp⟩ := (under_iff hc ht hj).1 hunder
      obtain rfl := Reads.idOf_inj hc hm hk hid
      exact ⟨m, hm, hp, hasked⟩
  case emitted =>
    intro c hcm
    rw [emits_iff ho hs hj hcm, hkeys, and_assoc, and_assoc]
    rfl

/-- What is emitted is a column of its element's table. -/
theorem Over.emits_mem (ho : t.Over s) {e : Element} (he : e ∈ t.elements) (h : e.Emits c) :
    c ∈ e.table.columns := by
  obtain ⟨o, hm, rfl, -⟩ := h
  exact (ho.columns e he o hm).1

/-- Where every row is an object, the objects in it are identified. -/
theorem AsAsked.identified (h : t.AsAsked .objects q) (ho : t.Over s) (hg : q.groupBys = [])
    (hd : q.distinct = false) : t.Identified := by
  intro e he
  split
  · rename_i hm
    refine ⟨?_, fun c hl => ?_⟩
    · exact (h.emitted e he _ e.table.primaryKey_mem).2 (.inr ⟨hm, rfl, hg, hd, .inl rfl⟩)
    · exact (h.emitted e he c (List.mem_of_find?_eq_some hl)).2
        (.inr ⟨hm, rfl, hg, hd, .inr hl⟩)
  · rename_i hm
    refine List.filter_eq_nil_iff.2 fun o hom hem => hm ?_
    have hemits : e.Emits o.column := ⟨o, hom, rfl, hem⟩
    rcases (h.emitted e he _ (ho.emits_mem he hemits)).1 hemits with hsel | ⟨hm, -⟩
    · exact (h.materialized e he).2 (.inr ⟨e, he, .self, .inl ⟨_, hsel⟩⟩)
    · exact hm

/-- Grouped rows show what they are grouped by. -/
theorem AsAsked.mem_emittedColumns_iff (h : t.AsAsked projection q)
    (ht : compile projection lead q = .ok t) (hq : q.Over s) (hg : q.groupBys ≠ []) :
    (path, c) ∈ t.emittedColumns ↔ ∃ g ∈ q.groupBys, g.IsColumnAt path c := by
  have ho := compile_over hq ht
  have hshown : ∀ e ∈ t.elements, c ∈ e.table.columns →
      (e.Emits c ↔ ∃ g ∈ q.groupBys, g.IsColumnAt e.path c) := by
    intro e he hc
    simp [h.emitted e he c hc, h.selected e he c hc, QueryOf.asksFor_iff, hg]
  rw [mem_emittedColumns]
  constructor
  · rintro ⟨e, he, rfl, hem⟩
    exact (hshown e he (ho.emits_mem he hem)).1 hem
  · rintro ⟨g, hgm, hcol⟩
    obtain ⟨relation, table, hjoin, hc⟩ := hcol.join? (hq.parts.groupBys g hgm)
    obtain ⟨e, he, rfl⟩ := compile_element ht (by simp [QueryOf.nodes, hgm]) hcol.path?
    cases hjoin.symm.trans (ho.joins e he)
    exact ⟨e, he, rfl, (hshown e he hc).2 ⟨g, hgm, hcol⟩⟩

end

/-- **As asked.** A compiled tree selects, materializes and emits what its query asks for: with
objects, what identifies them, and with groups, each of what they are grouped by once. A grouped
query that selects anything else than what it groups by is refused. -/
theorem compile_as_asked {d : SchemaDecl} (hs : Schema.ofDeclaration d = .ok s) (hq : q.Over s)
    (projection : Projection) (lead : String) :
    (∀ t, compile projection lead q = .ok t → t.AsAsked projection q ∧
      (projection = .objects → q.groupBys = [] → q.distinct = false → t.Identified) ∧
      (q.groupBys ≠ [] → t.emittedColumns.Nodup ∧
        ∀ path c, (path, c) ∈ t.emittedColumns ↔ ∃ g ∈ q.groupBys, g.IsColumnAt path c)) ∧
    (q.groupBys ≠ [] → (∃ n ∈ q.selects, ∀ g ∈ q.groupBys, g.alike n = false) →
      ∃ fault, compile projection lead q = .error (.invalidQuery fault)) := by
  constructor
  · intro t h
    have hasked := compile_asAsked (Schema.ofDeclaration_sound hs) hq h
    have ho := compile_over hq h
    refine ⟨hasked, ?_, fun hg => ⟨emittedColumns_nodup ho (compile_nodup h), fun path c => ?_⟩⟩
    · rintro rfl hg hd
      exact hasked.identified ho hg hd
    · exact hasked.mem_emittedColumns_iff h hq hg
  · rintro hg ⟨n, hn, hnone⟩
    refine (compile_ok_or_invalid projection lead q).resolve_left ?_
    rintro ⟨t, h⟩
    obtain ⟨r, -, hr, -⟩ := compile_cases h
    obtain ⟨_, r₁, r₂, _, _, _, _, -, -, h2, -⟩ := Reads.ofQuery?_cases hr
    rw [if_pos (by simpa using hg)] at h2
    obtain ⟨g, hgm, halike⟩ := (Reads.selectGrouped_fold _ h2).2 n hn
    rw [hnone g hgm] at halike
    cases halike

/-- The query of the library, and the same query grouped by all but the first of what it selects. -/
theorem library_as_asked : ∃ s q t, Library.tree = .ok (s, q, t) ∧ t.AsAsked .objects q ∧
    t.Identified ∧
      ∃ fault, compile .objects "" { q with groupBys := q.selects.tail }
        = .error (.invalidQuery fault) := by
  obtain ⟨s, q, t, h⟩ := Library.exists_tree
  obtain ⟨hs, hquery, ht⟩ := Library.tree_cases h
  have hq := Library.query_over hquery
  obtain ⟨-, hg, -, -, -, -, hd⟩ := Library.query_plain hquery
  obtain ⟨hasked, hid, -⟩ := (compile_as_asked hs hq .objects "").1 t ht
  refine ⟨s, q, t, h, hasked, hid rfl hg hd, ?_⟩
  have hq' : QueryOf.Over s { q with groupBys := q.selects.tail } := by
    intro n hn
    refine hq n ?_
    simp only [QueryOf.nodes, List.mem_cons, List.mem_append] at hn ⊢
    have := List.mem_of_mem_tail (a := n) (l := q.selects)
    grind
  have happart : (Library.tree.toOption.map fun x => !x.2.1.selects.tail.isEmpty &&
      x.2.1.selects.any fun n => x.2.1.selects.tail.all fun g => !g.alike n) = some true := by
    decide +kernel
  rw [h] at happart
  obtain ⟨hne, hn⟩ : q.selects.tail ≠ [] ∧ ∃ n ∈ q.selects, ∀ g ∈ q.selects.tail,
      g.alike n = false := by
    simpa [Except.toOption] using happart
  exact (compile_as_asked hs hq' .objects "").2 hne hn

end JoinTree

end RecordGraph
