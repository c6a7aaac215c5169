import RecordGraph.Proofs.Agree
import RecordGraph.Proofs.JoinTree.Frame
import RecordGraph.Proofs.JoinTree.NamesRead
import RecordGraph.Proofs.Node.SameShape
import RecordGraph.Query.Resolution

/-!
# The outline of a join tree

What a query reads, and the joins that it gets, depend on the values in it only where the
expressions of its calculations stand. The outline of a tree leaves these out.

**Results.**
* `Reads.ofQuery?_agree`: queries of the same shape read the same, but for those expressions.
* `JoinTree.compile_agree`: their trees have the same outline.
* `JoinTree.source_outline`, `JoinTree.outputs_outline`, `JoinTree.elementFor_agree`: what the
  statement takes from a tree is in its outline.
-/
namespace RecordGraph

open Node (Parallel)

variable {R : Value → Value → Prop} {n n' : Node}

namespace Reads

/-- The same is read, of calculations under the same names at the same places. -/
structure Alike (r r' : Reads) : Prop where
  root : r.root = r'.root
  joins : r.joins = r'.joins
  columns : r.columns = r'.columns
  calculated : r.calculated = r'.calculated
  declared : r.calculations.map (fun d => (d.path, d.name)) =
    r'.calculations.map fun d => (d.path, d.name)

variable {r r' : Reads}

theorem Alike.join? (h : r.Alike r') : r.join? = r'.join? := by
  funext path
  rw [Reads.join?, Reads.join?, h.root, h.joins]

/-- Whether something of the kind is declared. -/
theorem Alike.any_declared (h : r.Alike r') (f : Path → String → Bool) :
    r.calculations.any (fun d => f d.path d.name) =
      r'.calculations.any fun d => f d.path d.name := by
  have hany := congrArg (List.any · fun k => f k.1 k.2) h.declared
  rw [List.any_map, List.any_map] at hany
  exact hany

theorem ensure_alike : ∀ (n : Node) {r r' : Reads}, r.Alike r' →
    Agree Alike (r.ensure n) (r'.ensure n)
  | n, r, r', h => by
    unfold ensure
    rw [h.join?]
    split
    · exact .error _ _
    · split
      · exact .ok h
      · split
        · exact .error _ _
        · exact (ensure_alike _ h).bind fun r₁ r₁' h₁ => .ok { h₁ with joins := by rw [h₁.joins] }
        · exact (ensure_alike _ h).bind fun r₁ r₁' h₁ => .ok { h₁ with joins := by rw [h₁.joins] }
        · exact (ensure_alike _ h).bind fun r₁ r₁' h₁ => .ok { h₁ with joins := by rw [h₁.joins] }
        · exact .error _ _

theorem ensure_agree (hn : Parallel R n n') (h : r.Alike r') :
    Agree Alike (r.ensure n) (r'.ensure n') := by
  cases hp : n.path? with
  | none =>
    have hp' : n'.path? = none := hn.path?_eq ▸ hp
    unfold ensure
    rw [hp, hp']
    exact .error _ _
  | some path =>
    obtain rfl := hn.eq_of_path (by rw [hp]; rfl)
    exact ensure_alike n h

theorem read_agree (hn : Parallel R n n') (h : r.Alike r') (selected : Bool)
    (columns : Table → List Column) :
    Agree Alike (r.read n selected columns) (r'.read n' selected columns) := by
  refine (ensure_agree hn h).bind fun r₁ r₁' h₁ => ?_
  rw [h₁.join?, hn.path?_eq]
  split
  · exact .ok { h₁ with columns := by rw [h₁.columns] }
  · exact .ok h₁

theorem expression_agree : ∀ {n n' : Node}, Parallel R n n' → ∀ {r r' : Reads}, r.Alike r' →
    Agree Alike (r.expression n) (r'.expression n')
  | _, _, .column _ hp, _, _, h => by
    rw [expression, expression]
    exact read_agree hp h _ _
  | _, _, .calculated _ hp, _, _, h => by
    rw [expression, expression]
    refine (ensure_agree hp h).bind fun r₁ r₁' h₁ => .ok { h₁ with calculated := ?_ }
    rw [h₁.calculated, hp.path?_eq]
  | _, _, .operation hs _, _, _, h => by
    rw [expression, expression, expressions_eq_foldlM, expressions_eq_foldlM]
    exact .foldlM ((forall₂_and_mem_zip hs).imp fun m m' ⟨hm, hz⟩ _ _ h =>
      have := List.sizeOf_lt_of_mem (List.of_mem_zip hz).1
      expression_agree hm h) h
  | _, _, .value .., _, _, h => by
    rw [expression, expression]
    exact .ok h
  | _, _, .subquery _, _, _, h => by
    rw [expression, expression]
    exact .ok h
  | _, _, .table t, _, _, h => by
    simp only [expression]
    exact read_agree (R := R) (.table t) h _ _
  | _, _, .reference rel t hp, _, _, h => by
    simp only [expression]
    exact read_agree (.reference rel t hp) h _ _
  | _, _, .reverse rel t hp, _, _, h => by
    simp only [expression]
    exact read_agree (.reverse rel t hp) h _ _
  | _, _, .manyMany rel t hp, _, _, h => by
    simp only [expression]
    exact read_agree (.manyMany rel t hp) h _ _
termination_by n => sizeOf n

theorem expressions_agree {ns ns' : List Node} (hs : List.Forall₂ (Parallel R) ns ns')
    (h : r.Alike r') : Agree Alike (r.expressions ns) (r'.expressions ns') := by
  rw [expressions_eq_foldlM, expressions_eq_foldlM]
  exact .foldlM (hs.imp fun _ _ hn _ _ h => expression_agree hn h) h

theorem groupBy_agree (hn : Parallel R n n') (h : r.Alike r') :
    Agree Alike (r.groupBy n) (r'.groupBy n') := by
  cases hn with
  | column c hp => exact read_agree hp h true fun _ => [c]
  | _ => exact .error _ _

theorem select_agree (hn : Parallel R n n') (h : r.Alike r') :
    Agree Alike (r.select n) (r'.select n') := by
  have hrelation (ht : n.isTableLike = true) : Agree Alike (r.selectAll n) (r'.selectAll n') :=
    read_agree hn h _ _
  cases hn with
  | column c hp => exact read_agree hp h true fun _ => [c]
  | table | reference | reverse | manyMany => exact hrelation rfl
  | calculated | operation | value | subquery => exact .error _ _

/-- What a query groups by has places, and so has what is selected from it. -/
theorem selectGrouped_agree {groupBys : List Node} (hg : ∀ g ∈ groupBys, g.path?.isSome)
    (hn : Parallel R n n') (h : r.Alike r') :
    Agree Alike (r.selectGrouped groupBys n) (r'.selectGrouped groupBys n') := by
  have hany : groupBys.any (·.alike n) = groupBys.any (·.alike n') := by
    cases hp : n.path? with
    | none =>
      have hnone {m : Node} (hm : m.path? = none) : groupBys.any (·.alike m) = false := by
        rw [List.any_eq_false]
        intro g hmem halike
        have := hg g hmem
        rw [Node.path?_eq_of_alike halike, hm] at this
        cases this
      rw [hnone hp, hnone (hn.path?_eq ▸ hp)]
    | some path => rw [hn.eq_of_path (by rw [hp]; rfl)]
  unfold selectGrouped
  rw [hany]
  split
  · exact .ok h
  · exact .error _ _

theorem declare_agree {k k' : Calculation Node} (hk : k.Paired (Parallel R) k')
    (h : r.Alike r') : Agree Alike (r.declare k) (r'.declare k') := by
  obtain ⟨name, ht, he⟩ := hk
  unfold declare
  rw [ht.isTableLike_eq]
  split
  · exact .error _ _
  · refine (ensure_agree ht h).bind fun r₁ r₁' h₁ => ?_
    refine (expression_agree he h₁).bind fun r₂ r₂' h₂ => ?_
    dsimp only
    rw [ht.path?_eq]
    split
    · exact .ok h₂
    · rw [h₂.any_declared fun p n => p == _ && n == name]
      split
      · exact .error _ _
      · refine .ok { h₂ with declared := ?_ }
        rw [List.map_append, List.map_append, h₂.declared]
        rfl

theorem checkCalculated_agree (h : r.Alike r') : ∀ refs : List (Path × String),
    Agree (fun _ _ => True) (r.checkCalculated refs) (r'.checkCalculated refs)
  | [] => .ok trivial
  | (path, name) :: rest => by
    unfold checkCalculated
    rw [h.any_declared fun p n => p == path && n == name]
    split
    · exact checkCalculated_agree h rest
    · exact .error _ _

/-- What a query that is read groups by has places. -/
theorem exists_path_of_groupBys {groupBys : List Node} (h : groupBys.foldlM groupBy r = .ok r') :
    ∀ g ∈ groupBys, g.path?.isSome := by
  intro g hg
  obtain ⟨r₁, r₂, hstep⟩ := foldlM_step_of_mem hg h
  obtain ⟨p, c, rfl, hread⟩ := groupBy_cases hstep
  obtain ⟨path, hp⟩ := exists_path_of_read hread
  rw [Node.path?, hp]
  rfl

theorem ofQuery?_eq_walk {q : Query} {t : Table} (hroot : q.root = .table t) :
    ofQuery? q = walk q (start [.table t.database t.name] t) >>= fun r =>
      r.checkCalculated r.calculated >>= fun _ => .ok r := by
  unfold ofQuery? walk
  simp only [hroot, bind_assoc]
  refine congrArg _ (funext fun r₁ => congrArg _ (funext fun r₂ => ?_))
  split <;> rfl

theorem walk_agree {q q' : Query} (h : q.Paired (Parallel R) q') (hr : r.Alike r') :
    Agree Alike (walk q r) (walk q' r') := by
  obtain ⟨hroot, hgroupBys, hselects, hconditions, horderBys, hhaving, hcalculations⟩ := h.lists
  have hsorts : List.Forall₂ (Parallel R) (q.orderBys.map (·.node)) (q'.orderBys.map (·.node)) :=
    List.rel_map (fun _ _ ⟨_, h⟩ => h) horderBys
  refine (Agree.foldlM (hgroupBys.imp fun _ _ hn _ _ h => groupBy_agree hn h) hr).and_ok.bind
    fun r₁ r₁' ⟨hgrouped, h₁⟩ => ?_
  have hpaths := exists_path_of_groupBys hgrouped
  have hsame : q.groupBys = q'.groupBys := by
    rw [← List.forall₂_eq_eq_eq]
    exact (forall₂_and_mem_zip hgroupBys).imp fun g g' ⟨hg, hz⟩ =>
      hg.eq_of_path (hpaths g (List.of_mem_zip hz).1)
  rw [← hsame, ← isEmpty_eq_of_forall₂ hselects]
  refine Agree.bind (S := Alike) (.foldlM (hselects.imp fun n n' hn r r' h => ?_) h₁)
    fun r₂ r₂' h₂ => Agree.bind (S := Alike) ?_ fun r₃ r₃' h₃ => ?_
  · split
    · exact selectGrouped_agree hpaths hn h
    · exact select_agree hn h
  · split
    · exact read_agree hroot h₂ true (·.columns)
    · exact .ok h₂
  · refine (expressions_agree hconditions h₃).bind fun _ _ h => ?_
    refine (expressions_agree hsorts h).bind fun _ _ h => ?_
    refine (expressions_agree hhaving h).bind fun _ _ h => ?_
    exact .foldlM (hcalculations.imp fun _ _ hk _ _ h => declare_agree hk h) h

/-- Queries of the same shape read the same. -/
theorem ofQuery?_agree {q q' : Query} (h : q.Paired (Parallel R) q') :
    Agree Alike (ofQuery? q) (ofQuery? q') := by
  have hroot := h.lists.1
  generalize hq : q.root = n, hq' : q'.root = n' at hroot
  cases hroot with
  | table t =>
    rw [ofQuery?_eq_walk hq, ofQuery?_eq_walk hq']
    refine (walk_agree h ⟨rfl, rfl, rfl, rfl, rfl⟩).bind fun r r' hr => ?_
    rw [hr.calculated]
    exact (checkCalculated_agree hr _).bind fun _ _ _ => .ok hr
  | _ =>
    unfold ofQuery?
    rw [hq, hq']
    exact .error _ _

end Reads

/-! ## Trees without expressions -/

/-- The element, with nothing in place of the expressions of its calculations. -/
def Element.outline (e : Element) : Element :=
  { e with calculations := e.calculations.map fun c => { c with expression := .value .null } }

section
variable {e e' : Element} (h : e.outline = e'.outline)
include h

theorem Element.label_eq_of_outline : e.label = e'.label := by
  have h := congrArg Element.label h
  exact h

theorem Element.path_eq_of_outline : e.path = e'.path := by
  have h := congrArg Element.path h
  exact h

theorem Element.table_eq_of_outline : e.table = e'.table := by
  have h := congrArg Element.table h
  exact h

end

/-- The output, with nothing in place of the expressions of calculations. -/
def Output.outline : Output → Output
  | .column e c => .column e.outline c
  | .calculation e c => .calculation e.outline { c with expression := .value .null }

/-- The tree, with nothing in place of the expressions of its calculations. -/
def JoinTree.outline (t : JoinTree) : JoinTree :=
  { t with root := t.root.outline, rest := t.rest.map Element.outline }

namespace Reads

variable {r r' : Reads}

theorem Alike.order (h : r.Alike r') : r.order = r'.order := by
  rw [Reads.order, Reads.order, h.root, h.joins]

theorem Alike.element (h : r.Alike r') (lead : String) (keys : Bool) (j : Join) :
    (r.element lead keys j).outline = (r'.element lead keys j).outline := by
  have hdeclared : ∀ f : Path → String → CalculationOutput,
      (r.calculations.filter (·.path == j.path)).map (fun d => f d.path d.name) =
        (r'.calculations.filter (·.path == j.path)).map fun d => f d.path d.name := by
    intro f
    have hd := congrArg (fun l => (l.filter (·.1 == j.path)).map fun k => f k.1 k.2) h.declared
    rw [List.filter_map, List.filter_map, List.map_map, List.map_map] at hd
    exact hd
  have hmaterialized : r.materialized j.path = r'.materialized j.path := by
    rw [materialized, materialized, h.root, h.columns,
      h.any_declared fun p _ => j.path.isPrefixOf p]
  have hcolumns : r.columnsOf keys j = r'.columnsOf keys j := by
    rw [columnsOf, columnsOf, h.columns]
  have hid (path : Path) : r.idOf path = r'.idOf path := by rw [idOf, idOf, h.order]
  have hchildren : r.children j.path = r'.children j.path := by
    simp only [children, h.order, hid]
  have hselected (c : Column) : r.isSelected j.path c = r'.isSelected j.path c := by
    rw [isSelected, isSelected, h.columns]
  simp only [Reads.element, Element.outline, List.map_map, Function.comp_def, hid, hchildren,
    hmaterialized, hcolumns, hselected]
  rw [hdeclared fun _ name =>
    ⟨name, lead ++ "t" ++ toString (r'.idOf j.path) ++ "__calc_" ++ name, .value .null⟩]

end Reads

namespace JoinTree

/-- Queries of the same shape get the same joins. -/
theorem compile_agree {q q' : Query} (h : q.Paired (Parallel R) q') (projection : Projection)
    (lead : String) : Agree (fun t t' => t.outline = t'.outline) (compile projection lead q)
      (compile projection lead q') := by
  refine ((Reads.ofQuery?_agree h).mapError _ _).bind fun r r' hr => ?_
  have hgrouped : q.groupBys.isEmpty = q'.groupBys.isEmpty := isEmpty_eq_of_forall₂ h.lists.2.1
  have hdistinct : q.distinct = q'.distinct := h.frame.2.2.1
  refine .ok ?_
  simp only [outline, hgrouped, hdistinct, hr.root, hr.order, hr.element, List.map_map,
    Function.comp_def]

variable {t t' : JoinTree}

theorem elements_outline (t : JoinTree) : t.outline.elements = t.elements.map Element.outline := rfl

theorem find?_outline (t : JoinTree) (path : Path) :
    t.outline.find? path = (t.find? path).map Element.outline := by
  rw [find?, find?, elements_outline, List.find?_map]
  rfl

/-- A tree and its outline have one frame. -/
theorem frame_outline (t : JoinTree) : t.outline.frame = t.frame := by
  rw [outline, frame, frame, List.map_map]
  rfl

/-- The FROM clause is that of the outline. -/
theorem source_outline (t : JoinTree) : t.outline.source = t.source := by
  rw [← source_frame, frame_outline, source_frame]

/-- The statement selects the outputs of the outline. -/
theorem outputs_outline (t : JoinTree) : t.outline.outputs = t.outputs.map Output.outline := by
  have hcolumns (e : Element) : e.outline.emitted.map (Output.column e.outline) =
      (e.emitted.map (Output.column e)).map Output.outline := by
    rw [List.map_map]
    rfl
  have hcalculations (e : Element) :
      e.outline.calculations.map (Output.calculation e.outline) =
        (e.calculations.map (Output.calculation e)).map Output.outline := by
    rw [Element.outline, List.map_map, List.map_map]
    rfl
  simp only [outputs, elements_outline, List.flatMap_map, List.map_append, List.map_flatMap,
    hcolumns, hcalculations]

/-- Trees with one outline select corresponding outputs. -/
theorem outputs_forall₂ (ht : t.outline = t'.outline) :
    List.Forall₂ (fun o o' => o.outline = o'.outline) t.outputs t'.outputs := by
  have h := outputs_outline t
  rw [ht, outputs_outline, ← List.forall₂_eq_eq_eq, List.forall₂_map_left_iff,
    List.forall₂_map_right_iff] at h
  exact h.flip.imp fun _ _ h => h.symm

/-- Where corresponding nodes are found. -/
theorem elementFor_agree (ht : t.outline = t'.outline) (hn : Parallel R n n') :
    Agree (fun e e' => e.outline = e'.outline) (t.elementFor n) (t'.elementFor n') := by
  unfold elementFor
  rw [hn.path?_eq]
  cases n'.path? with
  | none => exact .error _ _
  | some path =>
    have hfind : (t.find? path).map Element.outline = (t'.find? path).map Element.outline := by
      rw [← find?_outline, ← find?_outline, ht]
    rw [Option.bind_some, Option.bind_some]
    generalize t.find? path = found, t'.find? path = found' at hfind
    cases found <;> cases found' <;> simp only [Option.map_some, Option.map_none, Option.some.injEq,
      reduceCtorEq] at hfind
    · exact .error _ _
    · exact .ok hfind

end JoinTree

end RecordGraph
