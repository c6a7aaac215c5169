import RecordGraph.Cursor
import RecordGraph.Proofs.JoinTree.Named
import RecordGraph.Proofs.Sql.LeftJoin

/-!
# The joined rows of a tree

The FROM clause of a tree joins its elements in pre-order, so a joined row is made from the parent
of an element before it comes to the element.

* `JoinTree.Linked.related_of_joined`: what stands for an element is related to what stands for its
  parent.
* `JoinTree.Linked.exists_joined`: any related row stands there in some joined row, with the same
  rows for all elements before it.
* `JoinTree.Linked.get?_rowOf`: what the result shows of a joined row.
-/
namespace RecordGraph

namespace JoinTree

/-! ## Numbers of elements -/

variable {lead : String} {t : JoinTree}

/-- Elements are listed by their numbers. -/
theorem Linked.ids_pairwise (hl : t.Linked lead) :
    t.elements.Pairwise fun a b => a.id < b.id := by
  refine List.pairwise_iff_getElem.2 fun i j hi hj hij => ?_
  rw [(hl.numbered i _ (List.getElem?_eq_getElem hi)).1,
    (hl.numbered j _ (List.getElem?_eq_getElem hj)).1]
  exact hij

theorem Linked.element?_eq (hl : t.Linked lead) {e : Element} (he : e ∈ t.elements) :
    t.element? e.id = some e := by
  cases h : t.element? e.id with
  | none => exact absurd (beq_self_eq_true e.id) (List.find?_eq_none.1 h e he)
  | some e' =>
    have hid : e'.id = e.id := by simpa using List.find?_some h
    rw [hl.eq_of_id (List.mem_of_find?_eq_some h) he hid]

/-- The joins of an element to its parent. -/
def clausesOf (t : JoinTree) (e : Element) : List JoinClause :=
  match e.parent.bind t.element? with
  | some parent => parent.joinClauses e
  | none => []

theorem source_joins (t : JoinTree) : t.source.joins = t.rest.flatMap t.clausesOf := rfl

section
variable (hl : t.Linked lead)
include hl

theorem Linked.clausesOf_eq {p e : Element} (hp : p ∈ t.elements) (h : e.parent = some p.id) :
    t.clausesOf e = p.joinClauses e := by
  rw [clausesOf, h, Option.bind_some, hl.element?_eq hp]

theorem Linked.label_notMem {a e : Element} (ha : a ∈ t.elements) (he : e ∈ t.elements)
    (hne : a ≠ e) : a.label ∉ e.labels := by
  simp only [Element.labels, List.mem_cons, List.not_mem_nil, or_false, not_or]
  exact ⟨fun h => hne (hl.eq_of_label ha he h), fun h => hl.associationLabel_ne he ha h.symm⟩

/-- Joins of other elements leave an element alone. -/
theorem Linked.label_notMem_clauses {a : Element} (ha : a ∈ t.elements) {es : List Element}
    (hes : ∀ e ∈ es, e ∈ t.elements ∧ a ≠ e) :
    a.label ∉ (es.flatMap t.clausesOf).map (·.label) := by
  intro h
  obtain ⟨j, hj, hjl⟩ := List.mem_map.1 h
  obtain ⟨e, he, hj⟩ := List.mem_flatMap.1 hj
  obtain ⟨hem, hne⟩ := hes e he
  unfold clausesOf at hj
  cases hp : e.parent.bind t.element? with
  | none => simp [hp] at hj
  | some p =>
    simp only [hp] at hj
    refine hl.label_notMem ha hem hne (hjl ▸ ?_)
    exact Element.mem_labels_of_joinClauses (List.mem_map_of_mem hj)

/-! ## Joined rows -/

variable {eq : Equality} {db : Contents}

/-- A joined row comes to an element from a row `r₁` that has the rows of all elements before it;
whatever the joins of the element make of `r₁` is in some joined row. -/
theorem Linked.joined_split {r : Joined} (hr : r ∈ t.source.joined eq db) {p d : Element}
    (hp : p ∈ t.elements) (hd : d ∈ t.rest) (hdp : d.parent = some p.id) :
    ∃ r₁, (∀ a ∈ t.elements, a.id < d.id → r a.label = r₁ a.label) ∧
      (∃ r₂ ∈ JoinClause.extend eq db (p.joinClauses d) r₁, r d.label = r₂ d.label) ∧
      ∀ r₂ ∈ JoinClause.extend eq db (p.joinClauses d) r₁, ∃ r' ∈ t.source.joined eq db,
        r' d.label = r₂ d.label ∧ ∀ a ∈ t.elements, a.id < d.id → r' a.label = r₁ a.label := by
  obtain ⟨before, after, hrest⟩ := List.append_of_mem hd
  have hpair := hl.ids_pairwise
  rw [elements, hrest, ← List.cons_append, List.pairwise_append] at hpair
  have hafter : ∀ e ∈ after, d.id < e.id := (List.pairwise_cons.1 hpair.2.1).1
  have hin : ∀ e ∈ after, e ∈ t.elements := fun e he => by simp [elements, hrest, he]
  have hdm : d ∈ t.elements := List.mem_cons_of_mem _ hd
  have hjoins : t.source.joins
      = before.flatMap t.clausesOf ++ (p.joinClauses d ++ after.flatMap t.clausesOf) := by
    rw [source_joins, hrest, List.flatMap_append, List.flatMap_cons, hl.clausesOf_eq hp hdp]
  -- the element itself and those before it are not touched behind it
  have hd_after : d.label ∉ (after.flatMap t.clausesOf).map (·.label) :=
    hl.label_notMem_clauses hdm fun e he => ⟨hin e he, by
      rintro rfl; exact Nat.lt_irrefl _ (hafter _ he)⟩
  have ha_after : ∀ a ∈ t.elements, a.id < d.id →
      a.label ∉ (after.flatMap t.clausesOf).map (·.label) := fun a ha hlt =>
    hl.label_notMem_clauses ha fun e he => ⟨hin e he, by
      rintro rfl; exact Nat.lt_asymm hlt (hafter _ he)⟩
  have ha_d : ∀ a ∈ t.elements, a.id < d.id → a.label ∉ (p.joinClauses d).map (·.label) :=
    fun a ha hlt h => hl.label_notMem ha hdm (by rintro rfl; exact Nat.lt_irrefl _ hlt)
      (Element.mem_labels_of_joinClauses h)
  obtain ⟨x, hx, hr⟩ := From.mem_joined.1 hr
  rw [hjoins] at hr
  obtain ⟨r₁, h1, hr⟩ := JoinClause.mem_extend_append.1 hr
  obtain ⟨r₂, h2, h3⟩ := JoinClause.mem_extend_append.1 hr
  refine ⟨r₁, fun a ha hlt => ?_, ⟨r₂, h2, JoinClause.extend_of_notMem h3 hd_after⟩,
    fun r₂' h2' => ?_⟩
  · rw [JoinClause.extend_of_notMem h3 (ha_after a ha hlt),
      JoinClause.extend_of_notMem h2 (ha_d a ha hlt)]
  · obtain ⟨r', h3'⟩ := JoinClause.exists_extend eq db (after.flatMap t.clausesOf) r₂'
    refine ⟨r', From.mem_joined.2 ⟨x, hx, ?_⟩, JoinClause.extend_of_notMem h3' hd_after,
      fun a ha hlt => ?_⟩
    · rw [hjoins]
      exact JoinClause.mem_extend_append.2
        ⟨r₁, h1, JoinClause.mem_extend_append.2 ⟨r₂', h2', h3'⟩⟩
    · rw [JoinClause.extend_of_notMem h3' (ha_after a ha hlt),
        JoinClause.extend_of_notMem h2' (ha_d a ha hlt)]

/-- What a child and its parent need of each other. -/
theorem Linked.child_facts {p d : Element} (hp : p ∈ t.elements) (hd : d ∈ t.elements)
    (hdp : d.parent = some p.id) : d ∈ t.rest ∧ p.id < d.id ∧ p.label ∉ d.labels ∧
      d.associationLabel ≠ d.label ∧ d.relation ≠ .root := by
  have hrest : d ∈ t.rest := by
    refine (List.mem_cons.1 hd).resolve_left fun hroot => ?_
    rw [hroot, hl.root.2] at hdp
    cases hdp
  obtain ⟨p', hpm, hpp, hlt, hop, hhop, -⟩ := hl.parent d hrest
  have hid : p.id = p'.id := Option.some.inj (hdp.symm.trans hpp)
  refine ⟨hrest, hid ▸ hlt, hl.label_notMem hp hd ?_, hl.associationLabel_ne hd hd, ?_⟩
  · rintro rfl
    exact Nat.lt_irrefl _ (hid ▸ hlt)
  · intro h
    rw [h] at hhop
    cases hhop

/-- What stands for an element is related to what stands for its parent. -/
theorem Linked.related_of_joined {r : Joined} (hr : r ∈ t.source.joined eq db) {p d : Element}
    (hp : p ∈ t.elements) (hd : d ∈ t.elements) (hdp : d.parent = some p.id) {y : Tuple}
    (hy : r d.label = some y) :
    ∃ x, r p.label = some x ∧ y ∈ Element.related eq db p d x := by
  obtain ⟨hrest, hlt, hlabels, hassoc, hroot⟩ := hl.child_facts hp hd hdp
  obtain ⟨r₁, hbefore, ⟨r₂, h2, hd2⟩, -⟩ := hl.joined_split hr hp hrest hdp
  rw [hbefore p hp hlt]
  exact Element.related_of_extend hlabels hassoc h2 hroot (hd2 ▸ hy)

/-- Any related row stands for an element in some joined row, beside the same rows for the elements
before it. -/
theorem Linked.exists_joined {r : Joined} (hr : r ∈ t.source.joined eq db) {p d : Element}
    (hp : p ∈ t.elements) (hd : d ∈ t.elements) (hdp : d.parent = some p.id) {x y : Tuple}
    (hx : r p.label = some x) (hy : y ∈ Element.related eq db p d x) :
    ∃ r' ∈ t.source.joined eq db, r' d.label = some y ∧
      ∀ a ∈ t.elements, a.id < d.id → r' a.label = r a.label := by
  obtain ⟨hrest, hlt, hlabels, hassoc, -⟩ := hl.child_facts hp hd hdp
  obtain ⟨r₁, hbefore, -, hall⟩ := hl.joined_split hr hp hrest hdp
  rw [hbefore p hp hlt] at hx
  obtain ⟨r₂, h2, hy2⟩ := Element.extend_of_related hlabels hassoc hx hy
  obtain ⟨r', hr', hd', hbefore'⟩ := hall r₂ h2
  exact ⟨r', hr', hd'.trans hy2, fun a ha h => (hbefore' a ha h).trans (hbefore a ha h).symm⟩

/-- The joins leave the root alone. -/
theorem Linked.root_of_extend {x : Tuple} {r : Joined}
    (hr : r ∈ JoinClause.extend eq db t.source.joins
      (Joined.set (fun _ => none) t.root.label (some x))) : r t.root.label = some x := by
  have hroot : t.root.label ∉ (t.rest.flatMap t.clausesOf).map (·.label) := by
    refine hl.label_notMem_clauses List.mem_cons_self fun e he =>
      ⟨List.mem_cons_of_mem _ he, ?_⟩
    rintro rfl
    exact Nat.lt_irrefl _ ((List.pairwise_cons.1 hl.ids_pairwise).1 _ he)
  rw [JoinClause.extend_of_notMem hr hroot, Joined.set_self]

/-- A joined row goes back to a row of the root. -/
theorem Linked.root_of_joined {r : Joined} (hr : r ∈ t.source.joined eq db) :
    ∃ x ∈ db t.root.table.name, r t.root.label = some x := by
  obtain ⟨x, hx, hr⟩ := From.mem_joined.1 hr
  exact ⟨x, hx, hl.root_of_extend hr⟩

/-- The root stands for each row of its table. -/
theorem Linked.root_joined (x : Tuple) :
    x ∈ db t.root.table.name ↔ ∃ r ∈ t.source.joined eq db, r t.root.label = some x := by
  constructor
  · intro hx
    obtain ⟨r, hr⟩ := JoinClause.exists_extend eq db t.source.joins
      (Joined.set (fun _ => none) t.root.label (some x))
    exact ⟨r, From.mem_joined.2 ⟨x, hx, hr⟩, hl.root_of_extend hr⟩
  · rintro ⟨r, hr, hrx⟩
    obtain ⟨y, hy, hry⟩ := hl.root_of_joined hr
    obtain rfl : y = x := Option.some.inj (hry.symm.trans hrx)
    exact hy

end

end JoinTree

/-! ## Rows of the result -/

/-- The value of an output. The joins give no calculations, so these stay null. -/
def Output.value (r : Joined) : Output → Value
  | .column e c => r.value ⟨e.label, c.column.name⟩
  | .calculation _ _ => .null

namespace JoinTree

/-- The result row of a joined row, under the names of the tree's outputs. -/
def rowOf (t : JoinTree) (r : Joined) : Row := ⟨t.outputs.map fun o => (o.label, o.value r)⟩

/-- The first entry under a name is as good as any, if all of them have one value. -/
theorem lookup_map_eq {α : Type} {f : α → String × Value} {a : α} : ∀ {as : List α}, a ∈ as →
    (∀ b ∈ as, (f b).1 = (f a).1 → (f b).2 = (f a).2) →
      (as.map f).lookup (f a).1 = some (f a).2
  | b :: as, ha, h => by
    rw [List.map_cons, List.lookup_cons]
    by_cases hb : (f a).1 = (f b).1
    · simp [hb, h b List.mem_cons_self hb.symm]
    · have hne : ((f a).1 == (f b).1) = false := by simpa using hb
      rw [hne]
      refine lookup_map_eq ((List.mem_cons.1 ha).resolve_left ?_)
        fun c hc => h c (List.mem_cons_of_mem _ hc)
      rintro rfl
      exact hb rfl

/-- The result shows every emitted column of a joined row. -/
theorem Linked.get?_rowOf {s : Schema} {lead : String} {t : JoinTree} (hl : t.Linked lead)
    (ho : t.Over s) (r : Joined) {e : Element} (he : e ∈ t.elements) {c : ColumnOutput}
    (hc : c ∈ e.emitted) :
    (t.rowOf r).get? c.label = some (r.value ⟨e.label, c.column.name⟩) := by
  have hcols : Output.column e c ∈ t.elements.flatMap fun e => e.emitted.map (.column e) :=
    List.mem_flatMap.2 ⟨e, he, List.mem_map_of_mem hc⟩
  have hlabel : ∀ e ∈ t.elements, ∀ c ∈ e.emitted, c.label = e.label ++ "__" ++ c.column.name :=
    fun e he c hc => (ho.columns e he c (List.mem_filter.1 hc).1).2
  have hfirst : ((t.elements.flatMap fun e => e.emitted.map (Output.column e)).map
      fun o => (o.label, o.value r)).lookup c.label = some (r.value ⟨e.label, c.column.name⟩) := by
    refine lookup_map_eq (f := fun o : Output => (o.label, o.value r)) hcols fun o hom hname => ?_
    obtain ⟨e', he', hom⟩ := List.mem_flatMap.1 hom
    obtain ⟨c', hc', rfl⟩ := List.mem_map.1 hom
    simp only [Output.label] at hname
    rw [hlabel e' he' c' hc', hlabel e he c hc] at hname
    obtain ⟨rfl, hn⟩ := hl.columnLabel_inj he' he hname
    simp only [Output.value, hn]
  rw [Row.get?, rowOf, outputs, List.map_append, List.lookup_append, hfirst, Option.some_or]

end JoinTree

end RecordGraph
