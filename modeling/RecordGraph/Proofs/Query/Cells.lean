import RecordGraph.Cursor
import RecordGraph.Proofs.JoinTree.JoinedRows
import RecordGraph.Proofs.NameMap
import RecordGraph.Proofs.Outcome
import RecordGraph.Record.Unpack

/-!
# Cells

What a decoded row shows of a column is the raw value of the column, read by its receiver; what an
object shows of it is what the row does.

**Results.**
* `Row.cell_of_decode`: a raw cell and its decoded value.
* `JoinTree.Linked.cell`: the cells of an element's columns.
* `Element.find?_valuesIn`, `Element.find?_calculationsIn`, `Element.exists_of_contains_valuesIn`:
  the values of an object.
-/
namespace RecordGraph

namespace Row

/-- Raw values under the names of their columns. -/
def raw (columns : List ResultColumn) (values : List Value) : Row :=
  ⟨(columns.map (·.label)).zip values⟩

/-- The first column with a name settles the raw and the decoded value under it. -/
theorem lookup_decoded {label : String} {c : ResultColumn} : ∀ {columns : List ResultColumn}
    {raws values : List Value}, raws.length = columns.length →
      ((columns.zip raws).mapM fun (c, v) => c.decode v) = .ok values →
        columns.find? (·.label == label) = some c → ∃ a v,
          ((columns.map (·.label)).zip raws).lookup label = some a ∧
            ((columns.map (·.label)).zip values).lookup label = some v ∧ c.decode a = .ok v
  | d :: columns, a :: raws, values, hlen, h, hc => by
    rw [List.zip_cons_cons, List.mapM_cons] at h
    obtain ⟨v, hv, h⟩ := bind_eq_ok_iff.1 h
    obtain ⟨rest, hrest, h⟩ := bind_eq_ok_iff.1 h
    cases h
    rw [List.map_cons, List.zip_cons_cons, List.zip_cons_cons, List.lookup_cons, List.lookup_cons]
    rw [List.find?_cons] at hc
    by_cases hd : d.label = label
    · rw [hd, beq_self_eq_true] at hc
      cases hc
      rw [hd, beq_self_eq_true]
      exact ⟨a, v, rfl, rfl, hv⟩
    · have hne : (d.label == label) = false := beq_eq_false_iff_ne.2 hd
      have hne' : (label == d.label) = false := beq_eq_false_iff_ne.2 fun h => hd h.symm
      rw [hne] at hc
      rw [hne']
      exact lookup_decoded (Nat.succ.inj hlen) hrest hc

theorem cell_of_decode {operation : String} {statement : Statement} {columns : List ResultColumn}
    {values : List Value} {row : Row} (h : decode operation statement columns values = .ok row)
    {label : String} {c : ResultColumn} (hc : columns.find? (·.label == label) = some c) :
    ∃ a v, (raw columns values).get? label = some a ∧ row.get? label = some v ∧
      c.decode a = .ok v := by
  unfold decode at h
  split at h
  · cases h
  · rename_i hlen
    obtain ⟨decoded, hd, h⟩ := bind_eq_ok_iff.1 h
    cases h
    exact lookup_decoded (Decidable.not_not.1 hlen) hd hc

end Row

namespace JoinTree

variable {s : Schema} {lead : String} {t : JoinTree}

/-- The columns of an element are found under their names. -/
theorem Linked.find?_ofTree (hl : t.Linked lead) (ho : t.Over s) {e : Element}
    (he : e ∈ t.elements) {c : ColumnOutput} (hc : c ∈ e.emitted) :
    (ResultColumn.ofTree t).find? (·.label == c.label) =
      some ⟨c.label, some c.column.receiver⟩ := by
  have hlabel : ∀ e ∈ t.elements, ∀ c ∈ e.emitted, c.label = e.label ++ "__" ++ c.column.name :=
    fun e he c hc => (ho.columns e he c (List.mem_filter.1 hc).1).2
  have hfirst : ((t.elements.flatMap fun e => e.emitted.map (Output.column e)).map
      ResultColumn.ofOutput).find? (·.label == c.label) =
        some ⟨c.label, some c.column.receiver⟩ := by
    have hmem : ResultColumn.ofOutput (.column e c) ∈
        (t.elements.flatMap fun e => e.emitted.map (Output.column e)).map ResultColumn.ofOutput :=
      List.mem_map_of_mem (List.mem_flatMap.2 ⟨e, he, List.mem_map_of_mem hc⟩)
    obtain ⟨found, hfound⟩ := Option.isSome_iff_exists.1
      (List.find?_isSome.2 ⟨_, hmem, beq_self_eq_true _⟩ :
        (List.find? (fun x : ResultColumn => x.label == c.label) _).isSome = true)
    rw [hfound]
    obtain ⟨o, ho', rfl⟩ := List.mem_map.1 (List.mem_of_find?_eq_some hfound)
    obtain ⟨e', he', ho'⟩ := List.mem_flatMap.1 ho'
    obtain ⟨c', hc', rfl⟩ := List.mem_map.1 ho'
    have hname : c'.label = c.label := by simpa [ResultColumn.ofOutput] using List.find?_some hfound
    rw [hlabel e' he' c' hc', hlabel e he c hc] at hname
    obtain ⟨rfl, hcol⟩ := hl.columnLabel_inj he' he hname
    obtain rfl : c' = c := List.inj_on_of_nodup_map (ho.names e' he) (List.mem_filter.1 hc').1
      (List.mem_filter.1 hc).1 hcol
    rfl
  rw [ResultColumn.ofTree, outputs, List.map_append, List.find?_append, hfirst, Option.some_or]

/-- A row shows the raw value of every emitted column, read by its receiver. -/
theorem Linked.cell (hl : t.Linked lead) (ho : t.Over s) {operation : String}
    {statement : Statement} {values : List Value} {row : Row}
    (h : Row.decode operation statement (ResultColumn.ofTree t) values = .ok row) {e : Element}
    (he : e ∈ t.elements) {c : ColumnOutput} (hc : c ∈ e.emitted) : ∃ a v,
      (Row.raw (ResultColumn.ofTree t) values).get? c.label = some a ∧ row.get? c.label = some v ∧
        c.column.receiver.decode c.label a = .ok v :=
  Row.cell_of_decode h (hl.find?_ofTree ho he hc)

end JoinTree

/-! ## The values of an object -/

namespace NameMap

/-- A map holds nothing but its entries. -/
theorem mem_of_find?_ofList {α : Type} {entries : List (String × α)} {name : String}
    (h : (ofList entries).contains name = true) : name ∈ entries.map (·.1) := by
  by_contra hne
  rw [contains, ofList, find?_foldl_insert _ hne] at h
  cases h

end NameMap

namespace Element

variable {e : Element} {row : Row}

theorem find?_valuesIn (hn : (e.emitted.map (·.column.name)).Nodup) {c : ColumnOutput}
    (hc : c ∈ e.emitted) {v : Value} (hv : row.get? c.label = some v) :
    (e.valuesIn row).find? c.column.name = some v :=
  NameMap.find?_ofList_filterMap (fun c : ColumnOutput => c.column.name) (row.get? ·.label) hn hc hv

theorem find?_calculationsIn (hn : (e.calculations.map (·.name)).Nodup) {k : CalculationOutput}
    (hk : k ∈ e.calculations) {v : Value} (hv : row.get? k.label = some v) :
    (e.calculationsIn row).find? k.name = some v :=
  NameMap.find?_ofList_filterMap (fun k : CalculationOutput => k.name) (row.get? ·.label) hn hk hv

theorem exists_of_contains_valuesIn {name : String}
    (h : (e.valuesIn row).contains name = true) : ∃ c ∈ e.emitted, c.column.name = name := by
  obtain ⟨entry, hentry, hname⟩ := List.mem_map.1 (NameMap.mem_of_find?_ofList h)
  obtain ⟨c, hc, hentry⟩ := List.mem_filterMap.1 hentry
  obtain ⟨v, -, rfl⟩ := Option.map_eq_some_iff.1 hentry
  exact ⟨c, hc, hname⟩

end Element

end RecordGraph
