import RecordGraph.Proofs.Codec.NodeText
import RecordGraph.Proofs.Codec.NodeBinary
import RecordGraph.Proofs.JoinTree.Named
import RecordGraph.Proofs.Outcome

/-!
# Declared and emitted keys

A table declares its key by the index of a column that is marked as one. The objects of an element
are identified by the marks: their key is the first emitted column that has one. A resolved schema
marks nothing but the declared keys. A query that was read from outside may bring tables and columns
that are marked as they like, for reading a table checks nothing but the column at its index.

**Results.**
* `Table.ofParts?_isSome_iff`: what is checked of a table's key.
* `Element.place_emittedKey`: the emitted key is the first marked column in the order of the table.
* `JoinTree.emittedKey_declared`: every table has its declared key; when this is what identifies the
  objects of an element.
-/
namespace RecordGraph

/-- A table is made of its parts exactly if the index names a marked column, whatever else is
marked. -/
theorem Table.ofParts?_isSome_iff {database name : String} {columns : List Column} {keyIndex : Nat}
    {references : List Reference} {reverses : List Reverse} {manyManys : List ManyMany} :
    (ofParts? database name columns keyIndex references reverses manyManys).isSome = true ↔
      ∃ c, columns[keyIndex]? = some c ∧ c.primaryKey = true := by
  rw [ofParts?]
  split_ifs with hlt hmarked
  · simp [hlt, hmarked]
  · simp [hlt, hmarked]
  · simp [hlt]

/-- No column of the table is marked as a key but the declared one. -/
def Table.OneKey (t : Table) : Prop := ∀ c ∈ t.columns, c.primaryKey = true → c = t.primaryKey

/-- The tables of a resolved schema are like that. -/
theorem Schema.oneKey_of_declaration {d : SchemaDecl} {s : Schema} (h : ofDeclaration d = .ok s) :
    ∀ t ∈ s.tables, t.OneKey := fun t ht => ((ofDeclaration_sound h).sound t ht).key

/-! ## The emitted key -/

namespace Element

variable {e : Element} {c : ColumnOutput}

/-- The declared key is emitted as a key, before any other column that is marked as one. -/
def KeyFirst (e : Element) : Prop :=
  ∃ k ∈ e.emitted, k.column.primaryKey = true ∧ k.column.name = e.table.primaryKey.name ∧
    ∀ d ∈ e.emitted, d.column.primaryKey = true → d.column.name ≠ k.column.name →
      Reads.place e.table k.column < Reads.place e.table d.column

instance (e : Element) : Decidable e.KeyFirst :=
  inferInstanceAs (Decidable (∃ k ∈ e.emitted, _))

/-- The columns stand in the order of the table. -/
def InOrder (e : Element) : Prop := e.columns.Pairwise fun c d =>
  Reads.place e.table c.column ≤ Reads.place e.table d.column

theorem emittedKey?_marked (h : e.emittedKey? = some c) :
    c ∈ e.emitted ∧ c.column.primaryKey = true := by
  have hmarked := List.find?_some h
  exact ⟨List.mem_of_find?_eq_some h, hmarked⟩

/-- The emitted key is the first marked column in the order of the table. -/
theorem place_emittedKey (hsorted : e.InOrder) (h : e.emittedKey? = some c) {d : ColumnOutput}
    (hd : d ∈ e.emitted) (hmarked : d.column.primaryKey = true) :
    Reads.place e.table c.column ≤ Reads.place e.table d.column := by
  obtain ⟨-, before, after, heq, hbefore⟩ := List.find?_eq_some_iff_append.1 h
  have hpairwise : (before ++ c :: after).Pairwise fun c d =>
      Reads.place e.table c.column ≤ Reads.place e.table d.column :=
    heq ▸ hsorted.filter _
  rw [heq] at hd
  rcases List.mem_append.1 hd with hd | hd
  · have hunmarked := hbefore d hd
    rw [hmarked] at hunmarked
    cases hunmarked
  · rcases List.mem_cons.1 hd with rfl | hd
    · exact Nat.le_refl _
    · exact (List.pairwise_cons.1 (List.pairwise_append.1 hpairwise).2.1).1 d hd

/-- So it is the declared one exactly if this comes before any other. -/
theorem emittedKey_name_iff (hsorted : e.InOrder) (h : e.emittedKey? = some c) :
    c.column.name = e.table.primaryKey.name ↔ e.KeyFirst := by
  obtain ⟨hc, hmarked⟩ := emittedKey?_marked h
  constructor
  · intro hname
    refine ⟨c, hc, hmarked, hname, fun d hd hdmarked hne => ?_⟩
    refine Nat.lt_of_le_of_ne (place_emittedKey hsorted h hd hdmarked) fun heq => hne ?_
    rw [Reads.place_congr hname] at heq
    exact (Reads.name_eq_of_place e.table.primaryKey_mem heq.symm).trans hname.symm
  · rintro ⟨k, hk, hkmarked, hname, hfirst⟩
    by_contra hne
    have hlt := hfirst c hc hmarked fun heq => hne (heq.trans hname)
    exact absurd hlt (Nat.not_lt.2 (place_emittedKey hsorted h hk hkmarked))

end Element

namespace JoinTree

variable {projection : Projection} {lead : String} {q : Query} {t : JoinTree}

theorem compile_inOrder (h : compile projection lead q = .ok t) {e : Element}
    (he : e ∈ t.elements) : e.InOrder := by
  obtain ⟨r, keys, -, -, -, ht⟩ := compile_cases h
  obtain ⟨j, -, rfl⟩ := (mem_elements ht).1 he
  exact List.pairwise_map.2 (r.columnsOf_sorted keys j)

/-- **Declared keys.** Whatever query is compiled, read from outside or not: the table of every
element has its declared key, and a column that is emitted as a key is marked as one. It is the
declared key exactly if that is emitted before any other marked column; so it always is where the
query follows a schema whose tables mark no other column. -/
theorem emittedKey_declared (h : compile projection lead q = .ok t) {e : Element}
    (he : e ∈ t.elements) :
    (e.table.primaryKey ∈ e.table.columns ∧ e.table.primaryKey.primaryKey = true) ∧
      ∀ c, e.emittedKey? = some c → (c ∈ e.emitted ∧ c.column.primaryKey = true) ∧
        (c.column.name = e.table.primaryKey.name ↔ e.KeyFirst) ∧
          ∀ s : Schema, q.Over s → (∀ t ∈ s.tables, t.OneKey) →
            c.column = e.table.primaryKey := by
  refine ⟨⟨e.table.primaryKey_mem, e.table.primaryKey_primary⟩, fun c hc => ?_⟩
  have hmarked := Element.emittedKey?_marked hc
  refine ⟨hmarked, Element.emittedKey_name_iff (compile_inOrder h he) hc, fun s hq hkeys => ?_⟩
  have ho := compile_over hq h
  have hcolumn := (ho.columns e he c (List.mem_filter.1 hmarked.1).1).1
  exact hkeys _ (Schema.mem_of_join? (ho.joins e he)) _ hcolumn hmarked.2

end JoinTree

/-! ## Two marks -/

namespace Mailroom

/-- Letters with two columns that are marked as keys, one of which is declared. -/
def letters (declared : Fin 2) : Table where
  database := "mailroom"
  name := "letters"
  columns := [⟨"stamp", "stamp", .int64, .column, false, true, false, none⟩,
    ⟨"id", "id", .autoPrimaryKey, .column, false, true, false, none⟩]
  keyIndex := declared
  references := []
  reverses := []
  manyManys := []
  key_lt := declared.isLt
  key_primary := by revert declared; decide

def query (declared : Fin 2) : Query := QueryOf.all (.table (letters declared))

/-- The query is read from its text and from its bytes. -/
theorem query_read (declared : Fin 2) :
    Query.ofText? (query declared).toText = some (query declared) ∧
      Query.ofBytes? (query declared).toBytes = some (query declared) := by
  have hvalues : (query declared).values = [] := rfl
  have hsizes : (Node.queryToJson (query declared)).levels < Json.depthLimit ∧
      (Node.queryToJson (query declared)).chars.length < 2 ^ 64 ∧
        (query declared).toBytes.length < 2 ^ 64 := by
    revert declared
    decide +kernel
  have hnone {P : Value → Prop} : ∀ v ∈ (query declared).values, P v := by
    rw [hvalues]
    exact fun v hv => absurd hv List.not_mem_nil
  obtain ⟨hlevels, htext, hbytes⟩ := hsizes
  refine ⟨Query.ofText_toText hnone hnone hlevels ?_, ?_⟩
  · rw [Query.toText, Json.render, String.length_ofList]
    exact htext
  · have hread := Query.ofBytes_toBytes hnone hbytes []
    rw [List.append_nil] at hread
    exact hread

/-- If the first marked column is declared, letters are identified by it. -/
theorem stamp_declared : ∃ t c, JoinTree.compile .objects "" (query 0) = .ok t ∧
    t.root ∈ t.elements ∧ t.root.emittedKey? = some c ∧ t.root.KeyFirst ∧
      c.column.name = t.root.table.primaryKey.name := by
  obtain ⟨t, ht, hsome, hfirst⟩ := exists_ok_of_decide
    (x := JoinTree.compile .objects "" (query 0))
    (P := fun t => t.root.emittedKey?.isSome = true ∧ t.root.KeyFirst) (by cbv)
  obtain ⟨c, hc⟩ := Option.isSome_iff_exists.1 hsome
  obtain ⟨-, hkey⟩ := JoinTree.emittedKey_declared ht List.mem_cons_self
  exact ⟨t, c, ht, List.mem_cons_self, hc, hfirst, (hkey c hc).2.1.2 hfirst⟩

/-- If the second one is, letters are still identified by the first. -/
theorem id_undeclared : ∃ t c, Query.ofText? (query 1).toText = some (query 1) ∧
    Query.ofBytes? (query 1).toBytes = some (query 1) ∧
      JoinTree.compile .objects "" (query 1) = .ok t ∧ t.root.emittedKey? = some c ∧
        c.column.name = "stamp" ∧ t.root.table.primaryKey.name = "id" := by
  obtain ⟨t, ht, hemitted, hdeclared⟩ := exists_ok_of_decide
    (x := JoinTree.compile .objects "" (query 1))
    (P := fun t => t.root.emittedKey?.map (·.column.name) = some "stamp" ∧
      t.root.table.primaryKey.name = "id") (by cbv)
  obtain ⟨c, hc, hname⟩ := Option.map_eq_some_iff.1 hemitted
  exact ⟨t, c, (query_read 1).1, (query_read 1).2, ht, hc, hname, hdeclared⟩

end Mailroom

end RecordGraph
