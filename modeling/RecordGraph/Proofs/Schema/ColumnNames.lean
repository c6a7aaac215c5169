import RecordGraph.Proofs.Record.SavedKeys
import RecordGraph.Proofs.Schema.Resolved

/-!
# Columns by name and by identifier

A table looks a column up by one text, first among the names of its columns and then among their
identifiers. Resolving a declaration keeps the names apart, and the identifiers, but lets the name
of one column be the identifier of another: of these two, the name wins.

* `SchemaDecl.Addresses`: whatever takes the name of a column addresses the same one, be it a chain,
  a record or a declared reference.
* `Schema.addresses_iff`: it is the one that the lookup finds.
* `Schema.addresses_name_and_identifier`: a name addresses its column, and so does an identifier
  unless another column has it for its name.
-/
namespace RecordGraph

/-- A column has the identifier of another one for its name. -/
def Column.Shadows (e c : Column) : Prop := e ≠ c ∧ e.name = c.identifier

/-! ## The lookup -/

namespace Table

variable {t : Table}

theorem Sound.identifiers_nodup (h : t.Sound) : (t.columns.map (·.identifier)).Nodup := by
  rw [List.nodup_iff_pairwise_ne, List.pairwise_map]
  exact h.columns.imp fun h => h.2

theorem Sound.column?_name (h : t.Sound) {c : Column} (hc : c ∈ t.columns) :
    t.column? c.name = some c := by
  rw [column?, named?, find?_identifier h.names_nodup hc]
  rfl

/-- An identifier finds its column where no other column has it for its name. -/
theorem Sound.column?_identifier_iff (h : t.Sound) {c : Column} (hc : c ∈ t.columns) :
    t.column? c.identifier = some c ↔ ¬∃ e ∈ t.columns, e.Shadows c := by
  constructor
  · rintro hfound ⟨e, he, hne, hname⟩
    rw [← hname, h.column?_name he] at hfound
    exact hne (Option.some.inj hfound)
  · intro hfree
    cases hn : t.named? c.identifier with
    | none =>
      rw [column?, hn, find?_identifier h.identifiers_nodup hc]
      rfl
    | some e =>
      have hname : e.name = c.identifier := by simpa using List.find?_some hn
      have hec : e = c := by_contra fun hne => hfree ⟨e, List.mem_of_find?_eq_some hn, hne, hname⟩
      rw [column?, hn, hec]
      rfl

end Table

/-! ## What the lookup settles -/

theorem Chain.column_eq_ok {s : Schema} {n : Node} {t : Table} {key : String} {c : Column}
    (hn : n.target? = some t) (h : t.column? key = some c) :
    column ⟨s, n⟩ key = .ok ⟨s, .column n c⟩ := by
  refine bind_eq_ok_iff.2 ⟨t, table_eq_ok_iff.2 hn, bind_eq_ok_iff.2 ⟨c, ?_, rfl⟩⟩
  rw [Table.requireColumn, h]

theorem Record.set_eq_ok_iff {r r' : Record} {key : String} {c : Column} {v : Value}
    (h : r.table.column? key = some c) :
    r.set key v = .ok r' ↔ c.isLock = false ∧
      (c.primaryKey = true → r.isNew = false → r.key.same v = true) ∧ r' = r.assign c.name v := by
  constructor
  · intro hset
    obtain ⟨e, he, hrest⟩ := set_cases hset
    rw [h] at he
    cases he
    exact hrest
  · rintro ⟨hlock, hkey, rfl⟩
    have hguard : (c.primaryKey && !r.isNew && !r.key.same v) = false := by
      cases hp : c.primaryKey <;> cases hnew : r.isNew <;> simp_all
    simp [set, h, hlock, hguard]

/-- Under `key`, whatever takes the name of a column of the table addresses the column `c`. -/
structure SchemaDecl.Addresses (d : SchemaDecl) (t : Table) (key : String) (c : Column) : Prop where
  column : t.column? key = some c
  chain : ∀ (s : Schema) (n : Node), n.target? = some t →
    Chain.column ⟨s, n⟩ key = .ok ⟨s, .column n c⟩
  get : ∀ r : Record, r.table = t → r.get? key = r.values.find? c.name
  set : ∀ r : Record, r.table = t → ∀ v r', r.set key v = .ok r' ↔ c.isLock = false ∧
    (c.primaryKey = true → r.isNew = false → r.key.same v = true) ∧ r' = r.assign c.name v
  references : ∀ decl ∈ d.tables, decl.name = t.name → ∀ r ∈ decl.references, r.column = key →
    ∃ m ∈ t.references, m.identifier = r.identifier ∧ m.column = c.name

namespace Schema

/-- A declared reference is put on its table with the column that its key finds there. -/
theorem Wires.exists_reference {d : SchemaDecl} {decl : TableDecl} {t : Table}
    (h : Wires d decl t) {r : ReferenceDecl} (hr : r ∈ decl.references) {c : Column}
    (hc : t.column? r.column = some c) :
    ∃ m ∈ t.references, m.identifier = r.identifier ∧ m.column = c.name := by
  have hmem : d.referenceOf? decl r ∈ t.references.map some :=
    h.references ▸ List.mem_map_of_mem hr
  obtain ⟨m, hm, hrm⟩ := List.mem_map.1 hmem
  simp only [SchemaDecl.referenceOf?, Option.bind_eq_some_iff, Option.bind_eq_bind,
    eq_comm (a := some m)] at hrm
  obtain ⟨fk, hfk, key, -, hm'⟩ := hrm
  cases hm'
  rw [column?_declared h.toDeclares, hfk] at hc
  cases hc
  exact ⟨_, hm, rfl, rfl⟩

section
variable {d : SchemaDecl} {s : Schema} {t : Table} (h : ofDeclaration d = .ok s) (ht : t ∈ s.tables)
include h ht

/-- What stands under a key is what the lookup finds. -/
theorem addresses_iff {key : String} {c : Column} :
    d.Addresses t key c ↔ t.column? key = some c := by
  refine ⟨fun ha => ha.column, fun hc => ⟨hc, fun s n hn => Chain.column_eq_ok hn hc, ?_, ?_, ?_⟩⟩
  · rintro r rfl
    rw [Record.get?, hc, Option.bind_some]
  · rintro r rfl v r'
    exact Record.set_eq_ok_iff hc
  · rintro decl hdecl hname r hr rfl
    have hnames := ((ofDeclaration_iff d).1.1 ⟨s, h⟩).names
    obtain ⟨decl', hdecl', hw⟩ := exists_of_mem_right ((ofDeclaration_iff d).2 s h).tables ht
    have : decl = decl' := List.inj_on_of_nodup_map hnames hdecl hdecl' (hname.trans hw.name)
    exact (this ▸ hw).exists_reference hr hc

/-- **Column names.** A name addresses its column. An identifier addresses its column exactly when
no other column has it for its name; else it addresses that one. -/
theorem addresses_name_and_identifier {c : Column} (hc : c ∈ t.columns) :
    d.Addresses t c.name c ∧
      (d.Addresses t c.identifier c ↔ ¬∃ e ∈ t.columns, e.Shadows c) ∧
      ∀ e ∈ t.columns, e.Shadows c → d.Addresses t c.identifier e := by
  have hsound := (ofDeclaration_sound h).sound t ht
  simp only [addresses_iff h ht]
  refine ⟨hsound.column?_name hc, hsound.column?_identifier_iff hc, ?_⟩
  rintro e he ⟨-, hname⟩
  exact hname ▸ hsound.column?_name he

end

end Schema

/-! ## Two bosses -/

namespace Staff

/-- People with their boss, which goes by the identifier `boss`. -/
def declaration (more : List ColumnDecl) : SchemaDecl where
  database := "staff"
  tables := [⟨"people", [Library.key,
    ⟨"boss_id", some "boss", .int64, .column, true, false, false, none⟩] ++ more,
    [⟨"chief", "boss", "people", none⟩]⟩]
  associations := []

/-- A column whose name is that identifier. -/
def note : ColumnDecl := ⟨"boss", some "boss_name", .string, .column, true, false, false, none⟩

end Staff

namespace Schema

/-- Without such a column the identifier leads to its column. -/
theorem staff_addresses : ∃ s t c, ofDeclaration (Staff.declaration []) = .ok s ∧ t ∈ s.tables ∧
    c ∈ t.columns ∧ c.name = "boss_id" ∧ (Staff.declaration []).Addresses t "boss" c := by
  obtain ⟨s, hs, t, ht, c, hc, hname, hid, hfree⟩ := exists_ok_of_decide
    (x := ofDeclaration (Staff.declaration [])) (P := fun s => ∃ t ∈ s.tables, ∃ c ∈ t.columns,
      c.name = "boss_id" ∧ c.identifier = "boss" ∧ ∀ e ∈ t.columns, e.name = "boss" → e = c)
    (by decide +kernel)
  refine ⟨s, t, c, hs, ht, hc, hname, hid ▸ ?_⟩
  refine (addresses_name_and_identifier hs ht hc).2.1.2 ?_
  rintro ⟨e, he, hne, hn⟩
  exact hne (hfree e he (hn.trans hid))

/-- With it, what goes by the identifier is the other column, and the declared reference runs
through that one. -/
theorem staff_shadowed : ∃ s, ofDeclaration (Staff.declaration [Staff.note]) = .ok s ∧
    ∃ t ∈ s.tables, ∃ c ∈ t.columns, ∃ e ∈ t.columns, c.identifier = "boss" ∧ e ≠ c ∧
      t.column? "boss" = some e ∧ t.references.map (·.column) = [e.name] :=
  exists_ok_of_decide (by decide +kernel)

end Schema

end RecordGraph
