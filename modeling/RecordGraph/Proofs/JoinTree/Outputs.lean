import Mathlib
import RecordGraph.Proofs.JoinTree.Named
import RecordGraph.Proofs.Query.Cells

/-!
# The names in a result

Outputs are found in a row by their labels. A label goes on from that of its element with `__`: a
column's with its name, a calculation's with `calc_` and its name. Columns are thus told from each
other, and so are calculations; a column `calc_total` is not told from a calculation `total` of the
same element.

* `JoinTree.NamesApart`: no element has such a pair.
* `JoinTree.labels_unique`: just then the labels are different, and every output is found.
* `Invoices.exists_total_hidden`: a calculation hidden by a column.
-/
namespace RecordGraph

namespace Row

/-- Where the names of a row's columns are different, each value is found under its name. -/
theorem get?_of_nodup {r : Row} (h : (r.cells.map (·.1)).Nodup) {label : String} {v : Value}
    (hm : (label, v) ∈ r.cells) : r.get? label = some v := by
  obtain ⟨before, after, hcells⟩ := List.append_of_mem hm
  refine List.lookup_eq_some_iff.2 ⟨before, after, hcells, fun p hp => ?_⟩
  rw [hcells, List.map_append, List.map_cons, List.nodup_append] at h
  have hne := h.2.2 p.1 (List.mem_map_of_mem hp) label List.mem_cons_self
  simpa using Ne.symm hne

/-- Where the names of a row's columns are different, the value at a place is found under the name
at that place. -/
theorem exists_at {r : Row} {names : List String} (hr : r.cells.map (·.1) = names)
    (h : names.Nodup) {i : Nat} {label : String} (hi : names[i]? = some label) :
    ∃ v, r.values[i]? = some v ∧ r.get? label = some v := by
  subst hr
  rw [List.getElem?_map, Option.map_eq_some_iff] at hi
  obtain ⟨⟨label, v⟩, hv, rfl⟩ := hi
  refine ⟨v, by rw [values, List.getElem?_map, hv, Option.map_some], ?_⟩
  exact get?_of_nodup h (List.mem_of_getElem? hv)

/-- Decoding keeps the number of values. -/
theorem length_decoded : ∀ {cells : List (ResultColumn × Value)} {values : List Value},
    (cells.mapM fun (c, v) => c.decode v) = .ok values → values.length = cells.length
  | [], _, h => by cases h; rfl
  | (c, v) :: cells, values, h => by
    rw [List.mapM_cons] at h
    obtain ⟨w, -, h⟩ := bind_eq_ok_iff.1 h
    obtain ⟨rest, hrest, h⟩ := bind_eq_ok_iff.1 h
    cases h
    rw [List.length_cons, List.length_cons, length_decoded hrest]

/-- A decoded row has one value for each column, under the column's name. -/
theorem cells_of_decode {operation : String} {statement : Statement} {columns : List ResultColumn}
    {raw : List Value} {row : Row} (h : decode operation statement columns raw = .ok row) :
    row.cells.map (·.1) = columns.map (·.label) := by
  unfold decode at h
  split at h
  · cases h
  · rename_i hlen
    obtain ⟨values, hv, h⟩ := bind_eq_ok_iff.1 h
    cases h
    have hlen := Decidable.not_not.1 hlen
    refine List.map_fst_zip (Nat.le_of_eq ?_)
    rw [length_decoded hv, List.length_zip, List.length_map, hlen, Nat.min_self]

end Row

namespace JoinTree

/-- No column of an element is named like the label of one of its calculations goes on. -/
def NamesApart (t : JoinTree) : Prop :=
  ∀ e ∈ t.elements, ∀ c ∈ e.emitted, ∀ k ∈ e.calculations, c.column.name ≠ "calc_" ++ k.name

instance (t : JoinTree) : Decidable t.NamesApart :=
  inferInstanceAs (Decidable
    (∀ e ∈ t.elements, ∀ c ∈ e.emitted, ∀ k ∈ e.calculations, c.column.name ≠ "calc_" ++ k.name))

variable {s : Schema} {projection : Projection} {lead : String} {q : Query} {t : JoinTree}

theorem compile_calculation_label (h : compile projection lead q = .ok t) {e : Element}
    (he : e ∈ t.elements) {k : CalculationOutput} (hk : k ∈ e.calculations) :
    k.label = e.label ++ "__" ++ ("calc_" ++ k.name) := by
  obtain ⟨r, keys, -, -, -, ht⟩ := compile_cases h
  obtain ⟨j, -, rfl⟩ := (mem_elements ht).1 he
  obtain ⟨d, -, rfl⟩ := List.mem_map.1 hk
  apply String.toList_injective
  simp [Reads.element]

/-- Labels that go on from those of their elements are different where they go on differently. -/
theorem Linked.labels_nodup (hl : t.Linked lead) (hnd : (t.elements.map (·.path)).Nodup)
    {names : Element → List String} (hn : ∀ e ∈ t.elements, (names e).Nodup) :
    (t.elements.flatMap fun e => (names e).map (e.label ++ "__" ++ ·)).Nodup := by
  refine List.nodup_flatMap.2 ⟨fun e he => ?_, ?_⟩
  · exact (hn e he).map_on fun a _ b _ hab => (hl.columnLabel_inj he he hab).2
  · refine (List.Nodup.of_map _ hnd).imp_of_mem fun {a b} ha hb hab label hla hlb => hab ?_
    obtain ⟨m, -, rfl⟩ := List.mem_map.1 hla
    obtain ⟨n, -, hmn⟩ := List.mem_map.1 hlb
    exact (hl.columnLabel_inj hb ha hmn).1.symm

/-- The labels of the outputs, by their elements. -/
theorem labels_eq (ho : t.Over s) (h : compile projection lead q = .ok t) :
    t.outputs.map Output.label =
      t.elements.flatMap (fun e => (e.emitted.map (·.column.name)).map (e.label ++ "__" ++ ·)) ++
        t.elements.flatMap fun e =>
          (e.calculations.map ("calc_" ++ ·.name)).map (e.label ++ "__" ++ ·) := by
  rw [outputs, List.map_append, List.map_flatMap, List.map_flatMap]
  congr 1 <;> refine List.flatMap_congr fun e he => ?_ <;>
    rw [List.map_map, List.map_map] <;> refine List.map_congr_left fun c hc => ?_
  · exact (ho.columns e he c (List.mem_filter.1 hc).1).2
  · exact compile_calculation_label h he hc

theorem labels_nodup_iff (hq : q.Over s) (h : compile projection lead q = .ok t) :
    (t.outputs.map Output.label).Nodup ↔ t.NamesApart := by
  have hl := compile_linked h
  have ho := compile_over hq h
  have hcolumns : ∀ e ∈ t.elements, (e.emitted.map (·.column.name)).Nodup := fun e he =>
    (ho.names e he).sublist (List.filter_sublist.map _)
  have hcalculations : ∀ e ∈ t.elements, (e.calculations.map ("calc_" ++ ·.name)).Nodup := by
    intro e he
    have hnames := (ho.calculations e he).map (f := ("calc_" ++ ·)) fun a b hab => by
      simpa using hab
    rwa [List.map_map] at hnames
  rw [labels_eq ho h, List.nodup_append]
  constructor
  · rintro ⟨-, -, hapart⟩ e he c hc k hk hname
    refine hapart _ (List.mem_flatMap.2 ⟨e, he, List.mem_map_of_mem (List.mem_map_of_mem hc)⟩) _
      (List.mem_flatMap.2 ⟨e, he, List.mem_map_of_mem (List.mem_map_of_mem hk)⟩) ?_
    rw [hname]
  · intro hapart
    refine ⟨hl.labels_nodup (compile_nodup h) hcolumns,
      hl.labels_nodup (compile_nodup h) hcalculations, ?_⟩
    rintro label hcolumn _ hcalculation rfl
    obtain ⟨e, he, hcolumn⟩ := List.mem_flatMap.1 hcolumn
    obtain ⟨e', he', hcalculation⟩ := List.mem_flatMap.1 hcalculation
    obtain ⟨_, hname, rfl⟩ := List.mem_map.1 hcolumn
    obtain ⟨_, hname', hlabel⟩ := List.mem_map.1 hcalculation
    obtain ⟨c, hc, rfl⟩ := List.mem_map.1 hname
    obtain ⟨k, hk, rfl⟩ := List.mem_map.1 hname'
    obtain ⟨rfl, hn⟩ := hl.columnLabel_inj he' he hlabel
    exact hapart _ he c hc k hk hn.symm

/-- **Labels.** The names in a result are pairwise different just when no element has a column that
is named as a calculation of it is labelled; every output of a decoded row is then found under its
label. -/
theorem labels_unique (hq : q.Over s) (h : compile projection lead q = .ok t) :
    ((t.outputs.map Output.label).Nodup ↔ t.NamesApart) ∧
      (t.NamesApart → ∀ {operation statement raw row},
        Row.decode operation statement (ResultColumn.ofTree t) raw = .ok row →
          ∀ (i : Nat) (o : Output), t.outputs[i]? = some o →
            ∃ v, row.values[i]? = some v ∧ row.get? o.label = some v) := by
  have hiff := labels_nodup_iff hq h
  refine ⟨hiff, fun hapart {operation statement raw row} hrow i o hi => ?_⟩
  have hlabels : (ResultColumn.ofTree t).map (·.label) = t.outputs.map Output.label := by
    rw [ResultColumn.ofTree, List.map_map]
    exact List.map_congr_left fun o _ => by cases o <;> rfl
  refine Row.exists_at ((Row.cells_of_decode hrow).trans hlabels) (hiff.2 hapart) ?_
  rw [List.getElem?_map, hi, Option.map_some]

end JoinTree

/-! ## Invoices with a column and a calculation -/

namespace Invoices

variable {column : String}

/-- Invoices with a key and one more column. -/
def declaration (column : String) : SchemaDecl where
  database := "office"
  tables := [⟨"invoices",
    [Library.key, ⟨column, none, .int64, .column, true, false, false, none⟩], []⟩]
  associations := []

/-- The invoices with their column and a calculation `total`. -/
def query (column : String) (s : Schema) : Except Error Query := do
  let invoices ← Chain.follow s "invoices" []
  let shown ← Chain.follow s "invoices" [.column column]
  .ok { QueryOf.all invoices.node with
    selects := [shown.node], calculations := [⟨invoices.node, "total", .value (.int 12)⟩] }

/-- An invoice as it is read: the key 1, the column 7, the calculation 12. -/
def read (column : String) : Except Error (Schema × Query × JoinTree × Row) := do
  let s ← Schema.ofDeclaration (declaration column)
  let q ← query column s
  let t ← JoinTree.compile .objects "" q
  let row ← Row.decode "load" ⟨"", []⟩ (ResultColumn.ofTree t) [.int 1, .int 7, .int 12]
  .ok (s, q, t, row)

theorem query_over {s : Schema} {q : Query} (h : query column s = .ok q) : q.Over s := by
  obtain ⟨invoices, h1, h⟩ := bind_eq_ok_iff.1 h
  obtain ⟨shown, h2, h⟩ := bind_eq_ok_iff.1 h
  cases h
  intro n hn
  simp only [QueryOf.nodes, QueryOf.all, List.map_nil, List.flatMap_cons, List.flatMap_nil,
    List.append_nil, List.nil_append, List.mem_cons, List.mem_append, List.not_mem_nil,
    or_false] at hn
  rcases hn with rfl | rfl | rfl | rfl
  · exact .of_follow h1
  · exact .of_follow h2
  · exact .of_follow h1
  · exact .value _

theorem read_cases {s : Schema} {q : Query} {t : JoinTree} {row : Row}
    (h : read column = .ok (s, q, t, row)) :
    Schema.ofDeclaration (declaration column) = .ok s ∧ query column s = .ok q ∧
      JoinTree.compile .objects "" q = .ok t ∧
        Row.decode "load" ⟨"", []⟩ (ResultColumn.ofTree t) [.int 1, .int 7, .int 12] = .ok row := by
  obtain ⟨s', h1, h⟩ := bind_eq_ok_iff.1 h
  obtain ⟨q', h2, h⟩ := bind_eq_ok_iff.1 h
  obtain ⟨t', h3, h⟩ := bind_eq_ok_iff.1 h
  obtain ⟨row', h4, h⟩ := bind_eq_ok_iff.1 h
  cases h
  exact ⟨h1, h2, h3, h4⟩

/-- Whether an invoice is read, with a given value at the place of the calculation and under its
label. -/
def shows (column : String) (placed found : Value) : Bool :=
  match read column with
  | .error _ => false
  | .ok (_, _, t, row) => row.values[2]? == some placed
      && (t.outputs[2]?.bind fun o => row.get? o.label) == some found

theorem shows_cases {placed found : Value} (h : shows column placed found = true) :
    ∃ s q t row o, read column = .ok (s, q, t, row) ∧ t.outputs[2]? = some o ∧
      row.values[2]? = some placed ∧ row.get? o.label = some found := by
  unfold shows at h
  split at h
  · cases h
  · rename_i s q t row hread
    obtain ⟨hplaced, hfound⟩ := Bool.and_eq_true_iff.1 h
    obtain ⟨o, ho, hget⟩ := Option.bind_eq_some_iff.1 (beq_iff_eq.1 hfound)
    exact ⟨s, q, t, row, o, hread, ho, beq_iff_eq.1 hplaced, hget⟩

theorem total_found : ∃ s q t row o, read "total" = .ok (s, q, t, row) ∧ t.NamesApart ∧
    (t.outputs.map Output.label).Nodup ∧ t.outputs[2]? = some o ∧
      row.get? o.label = some (.int 12) := by
  obtain ⟨s, q, t, row, o, hread, ho, hplaced, -⟩ :=
    shows_cases (by cbv : shows "total" (.int 12) (.int 12) = true)
  obtain ⟨-, hq, ht, hrow⟩ := read_cases hread
  have hapart : t.NamesApart := by
    have hall : ((read "total").map fun x => decide x.2.2.1.NamesApart) = .ok true := by cbv
    rw [hread] at hall
    exact of_decide_eq_true (Except.ok.inj hall)
  have hlabels := JoinTree.labels_unique (query_over hq) ht
  obtain ⟨v, hv, hget⟩ := hlabels.2 hapart hrow 2 o ho
  rw [hplaced] at hv
  cases hv
  exact ⟨s, q, t, row, o, hread, hapart, hlabels.1.2 hapart, ho, hget⟩

/-- A column `calc_total` hides the calculation `total`: both have one label, under which the
column is found. -/
theorem exists_total_hidden : ∃ d s q t row o, Schema.ofDeclaration d = .ok s ∧ q.Over s ∧
    JoinTree.compile .objects "" q = .ok t ∧
      Row.decode "load" ⟨"", []⟩ (ResultColumn.ofTree t) [.int 1, .int 7, .int 12] = .ok row ∧
        ¬(t.outputs.map Output.label).Nodup ∧ t.outputs[2]? = some o ∧
          row.values[2]? = some (.int 12) ∧ row.get? o.label = some (.int 7) := by
  obtain ⟨s, q, t, row, o, hread, ho, hplaced, hfound⟩ :=
    shows_cases (by cbv : shows "calc_total" (.int 12) (.int 7) = true)
  obtain ⟨hs, hq, ht, hrow⟩ := read_cases hread
  have hnodup : ¬(t.outputs.map Output.label).Nodup := by
    have hall : ((read "calc_total").map fun x =>
        decide (x.2.2.1.outputs.map Output.label).Nodup) = .ok false := by cbv
    rw [hread] at hall
    exact of_decide_eq_false (Except.ok.inj hall)
  exact ⟨_, s, q, t, row, o, hs, query_over hq, ht, hrow, hnodup, ho, hplaced, hfound⟩

end Invoices

end RecordGraph
