import RecordGraph.Proofs.Schema.Dependencies

/-!
# The types of foreign keys

The statement that creates a table writes a type for each column, by the dialect and by the flags of
the column itself. A foreign key is only legal between columns of one type, so the type of the
column has to come out as that of the key it refers to, whose flags are different.

**Results.**
* `Part.Creates.declares`: the columns that the statement of a part declares, in order.
* `Dialect.columnType_eq_iff`: a foreign key gets the type of a key of its receiver, except that
  MySQL bounds a text that is a key but leaves one that refers to it unbounded.
* `Schema.foreignKey_types`: this is so for every reference of a schema that was resolved. The
  columns of associations always get the types of their keys.
-/
namespace RecordGraph

/-! ## The columns of a statement -/

/-- A column as a statement declares it: its type, and what is said of it behind that. -/
structure ColumnText where
  name : String
  type : String
  constraints : String
  deriving DecidableEq

def ColumnText.text (d : Dialect) (c : ColumnText) : String :=
  d.quote c.name ++ " " ++ c.type ++ c.constraints

def Dialect.columnText (d : Dialect) (c : Column) : ColumnText :=
  if c.primaryKey && c.receiver == .autoPrimaryKey then ⟨c.name, d.autoPrimaryKey, ""⟩
  else if c.primaryKey then ⟨c.name, d.columnType c, " PRIMARY KEY"⟩
  else ⟨c.name, d.columnType c,
    (if c.nullable then "" else " NOT NULL") ++ (if c.unique then " UNIQUE" else "")⟩

theorem Dialect.text_columnText (d : Dialect) (c : Column) :
    (d.columnText c).text d = d.columnDefinition c := by
  unfold columnText columnDefinition
  split
  · exact String.append_empty
  · split
    · rfl
    · simp only [ColumnText.text, String.append_assoc]

namespace Command

/-- The columns that a command declares. -/
def columnTexts (d : Dialect) : Command → List ColumnText
  | .createTable t => t.columns.map d.columnText
  | .createAssociation a leftKey rightKey =>
    [⟨a.leftColumn, d.columnType leftKey, " NOT NULL"⟩,
      ⟨a.rightColumn, d.columnType rightKey, " NOT NULL"⟩]
  | _ => []

/-- The statement of a command creates a table and declares the columns in it, in their order. -/
def Declares (c : Command) (d : Dialect) (table : String) (columns : List ColumnText) : Prop :=
  ∃ rest, (c.statement d).sql =
    d.createHead table ++ ", ".intercalate (columns.map (·.text d)) ++ rest

end Command

theorem Part.Creates.declares {s : Schema} {p : Part} {c : Command} (h : p.Creates s c)
    (d : Dialect) : c.Declares d p.name (c.columnTexts d) := by
  have htext (text : String) : ((Sql.raw text).render d).sql = text := by
    simp [Sql.render, Sql.raw, Sql.textFrom]
  cases h with
  | table t =>
    have hcolumns : (t.columns.map d.columnText).map (·.text d) =
        t.columns.map d.columnDefinition := by
      rw [List.map_map]
      exact List.map_congr_left fun c _ => d.text_columnText c
    refine ⟨"".intercalate (t.references.map fun r =>
      ", " ++ d.foreignKey r.column r.target r.targetColumn) ++ ")", (htext _).trans ?_⟩
    rw [Command.columnTexts, hcolumns, Dialect.createTable, ← String.append_assoc]
    rfl
  | @association a left right =>
    have hcomma : " NOT NULL, " = " NOT NULL" ++ ", " := by decide
    refine ⟨", PRIMARY KEY (" ++ d.quote a.leftColumn ++ ", " ++ d.quote a.rightColumn ++ ")"
      ++ ", " ++ d.foreignKey a.leftColumn a.leftTable left.primaryKey.name
      ++ ", " ++ d.foreignKey a.rightColumn a.rightTable right.primaryKey.name ++ ")",
      (htext _).trans ?_⟩
    have hkey : ", PRIMARY KEY (" = ", " ++ "PRIMARY KEY (" := by decide
    simp only [Dialect.createAssociation, Command.columnTexts, List.map_cons, List.map_nil,
      String.intercalate_cons_cons, String.intercalate_singleton, ColumnText.text, Part.name,
      hcomma, hkey, String.append_assoc]

/-! ## Types of keys -/

/-- The receiver that a foreign key to a key of this receiver has. -/
def Receiver.keyForm : Receiver → Receiver
  | .autoPrimaryKey => .int64
  | r => r

theorem Receiver.keyForm_eq_string_iff {r : Receiver} : r.keyForm = .string ↔ r = .string := by
  cases r <;> decide

namespace Dialect

theorem sqliteType_keyForm (r : Receiver) : sqliteType r.keyForm = sqliteType r := by
  cases r <;> rfl

theorem postgresqlType_keyForm (r : Receiver) : postgresqlType r.keyForm = postgresqlType r := by
  cases r <;> rfl

theorem mysqlType_keyForm (indexed : Bool) (r : Receiver) :
    mysqlType indexed r.keyForm = mysqlType indexed r := by
  cases r <;> rfl

/-- Only for a text does it matter whether it is indexed. -/
theorem mysqlType_eq_indexed_iff {indexed : Bool} {r : Receiver} :
    mysqlType indexed r = mysqlType true r ↔ ¬(r = .string ∧ indexed = false) := by
  cases r <;> cases indexed <;> decide

/-- The column is a text that MySQL does not bound. -/
def Unbounded (d : Dialect) (c : Column) : Prop :=
  d = .mysql ∧ c.receiver = .string ∧ c.unique = false

/-- A column that is not a key itself has the type of a key of its receiver, unless it is a text
that MySQL does not bound. -/
theorem columnType_eq_iff (d : Dialect) {fk key : Column} (hfk : fk.primaryKey = false)
    (hkey : key.primaryKey = true) (h : fk.receiver.keyForm = key.receiver.keyForm) :
    d.columnType fk = d.columnType key ↔ ¬d.Unbounded fk := by
  cases d with
  | sqlite =>
    have htype : columnType .sqlite fk = columnType .sqlite key := by
      rw [columnType, columnType, ← sqliteType_keyForm, h, sqliteType_keyForm]
    simp [htype, Unbounded]
  | postgresql =>
    have htype : columnType .postgresql fk = columnType .postgresql key := by
      rw [columnType, columnType, ← postgresqlType_keyForm, h, postgresqlType_keyForm]
    simp [htype, Unbounded]
  | ansi =>
    have hstring : fk.receiver = .string ↔ key.receiver = .string := by
      rw [← Receiver.keyForm_eq_string_iff, h, Receiver.keyForm_eq_string_iff]
    simp [columnType, hstring, Unbounded]
  | mysql =>
    have htype : columnType .mysql key = mysqlType true fk.receiver := by
      rw [columnType, hkey, Bool.true_or, ← mysqlType_keyForm, ← h, mysqlType_keyForm]
    rw [htype, columnType, hfk, Bool.false_or, mysqlType_eq_indexed_iff]
    simp [Unbounded]

theorem type_columnText (d : Dialect) {c : Column} (h : c.primaryKey = false) :
    (d.columnText c).type = d.columnType c := by
  simp [columnText, h]

end Dialect

namespace Schema

variable {d : SchemaDecl} {s : Schema}

/-- A reference runs from a column of its table to the key of another one. -/
theorem exists_key (h : ofDeclaration d = .ok s) {t : Table} (ht : t ∈ s.tables) {r : Reference}
    (hr : r ∈ t.references) : ∃ fk target, t.named? r.column = some fk ∧
      s.table? r.target = some target ∧ target.primaryKey.name = r.targetColumn := by
  have hsound := ofDeclaration_sound h
  have hdescribes := (ofDeclaration_iff d).2 s h
  obtain ⟨decl, -, hw⟩ := exists_of_mem_right hdescribes.tables ht
  have hmem : some r ∈ decl.references.map (d.referenceOf? decl) :=
    hw.references ▸ List.mem_map_of_mem hr
  obtain ⟨r', -, hr'⟩ := List.mem_map.1 hmem
  simp only [SchemaDecl.referenceOf?, Option.bind_eq_some_iff, Option.bind_eq_bind] at hr'
  obtain ⟨fk, hfk, key, ⟨u, hu, hkey⟩, hr'⟩ := hr'
  cases hr'
  obtain ⟨target, htarget, hwt⟩ := exists_of_mem_left hdescribes.tables
    (List.mem_of_find?_eq_some hu)
  have hname : target.name = r'.targetTable :=
    hwt.name.trans (by simpa using List.find?_some hu)
  have hcolumn : columnOf fk ∈ t.columns := by
    have hfound : t.column? r'.column = some (columnOf fk) := by
      rw [column?_declared hw.toDeclares, hfk, Option.map_some]
    exact Table.mem_of_column? hfound
  have hprimary : columnOf key = target.primaryKey := by
    have := hwt.key
    rwa [hkey, Option.map_some, Option.some.injEq] at this
  refine ⟨columnOf fk, target, ?_, ?_, hprimary ▸ rfl⟩
  · exact Table.find?_identifier (hsound.sound t ht).names_nodup hcolumn
  · exact hname ▸ Table.find?_identifier hsound.names htarget

/-- **Foreign key types.** The statements that create a schema declare the columns of its tables and
associations. For a reference, the foreign key stands among them, and where it is no key itself but
has the receiver of the key it refers to, it gets the type of that key exactly when it is not a text
that MySQL leaves unbounded. For an association, both columns get the types of the keys. -/
theorem foreignKey_types (h : ofDeclaration d = .ok s) (dialect : Dialect) :
    (∃ cs, s.creation = cs.map .ok ∧ List.Forall₂ (fun p c => p.Creates s c ∧
      c.Declares dialect p.name (c.columnTexts dialect)) s.parts cs) ∧
    (∀ t ∈ s.tables, ∀ r ∈ t.references, ∃ fk target, t.named? r.column = some fk ∧
      s.table? r.target = some target ∧ target.primaryKey.name = r.targetColumn ∧
      dialect.columnText fk ∈ (Command.createTable t).columnTexts dialect ∧
      (fk.primaryKey = false → fk.receiver.keyForm = target.primaryKey.receiver.keyForm →
        ((dialect.columnText fk).type = dialect.columnType target.primaryKey ↔
          ¬dialect.Unbounded fk))) ∧
    ∀ a ∈ s.associations, ∃ left right, s.table? a.leftTable = some left ∧
      s.table? a.rightTable = some right ∧
      .ok (.createAssociation a left.primaryKey right.primaryKey) ∈ s.creation ∧
      ((Command.createAssociation a left.primaryKey right.primaryKey).columnTexts dialect).map
          (fun c => (c.name, c.type)) =
        [(a.leftColumn, dialect.columnType left.primaryKey),
          (a.rightColumn, dialect.columnType right.primaryKey)] := by
  obtain ⟨cs, hcs, hparts⟩ := creates_parts h
  refine ⟨⟨cs, hcs, hparts.imp fun p c hc => ⟨hc, hc.declares dialect⟩⟩, fun t ht r hr => ?_,
    fun a ha => ?_⟩
  · obtain ⟨fk, target, hfk, htarget, hname⟩ := exists_key h ht hr
    refine ⟨fk, target, hfk, htarget, hname, ?_, fun hnot hreceiver => ?_⟩
    · exact List.mem_map_of_mem (List.mem_of_find?_eq_some hfk)
    · rw [dialect.type_columnText hnot]
      exact dialect.columnType_eq_iff hnot target.primaryKey_primary hreceiver
  · have hpart : Part.association a ∈ s.parts :=
      List.mem_append_right _ (List.mem_map_of_mem ha)
    obtain ⟨c, hc, hcreates⟩ := exists_of_mem_left hparts hpart
    cases hcreates with
    | association hleft hright =>
      exact ⟨_, _, hleft, hright, hcs ▸ List.mem_map_of_mem hc, rfl⟩

end Schema

/-! ## Countries by their codes -/

namespace Atlas

def country (unique : Bool) : ColumnDecl :=
  ⟨"country", none, .string, .column, false, false, unique, none⟩

/-- Cities in countries, which go by a code. A country has one capital. -/
def declaration : SchemaDecl where
  database := "atlas"
  tables := [
    ⟨"countries", [⟨"code", none, .string, .column, false, true, false, none⟩], []⟩,
    ⟨"capitals", [Library.key, country true], [⟨"of", "country", "countries", none⟩]⟩,
    ⟨"cities", [Library.key, country false], [⟨"in", "country", "countries", none⟩]⟩]
  associations := []

/-- The country of a capital is unique, and MySQL bounds it as it bounds the code. -/
theorem capital_bounded : ∃ s, Schema.ofDeclaration declaration = .ok s ∧ ∃ t ∈ s.tables,
    t.name = "capitals" ∧ ∃ fk target, t.named? "country" = some fk ∧
      s.table? "countries" = some target ∧
      (Dialect.columnText .mysql fk).type = Dialect.columnType .mysql target.primaryKey := by
  obtain ⟨s, h, t, ht, hname, r, hr, hcolumn, htarget, hcase⟩ := exists_ok_of_decide
    (x := Schema.ofDeclaration declaration) (P := fun s => ∃ t ∈ s.tables, t.name = "capitals" ∧
      ∃ r ∈ t.references, r.column = "country" ∧ r.target = "countries" ∧
      ((t.named? "country").any fun fk => (s.table? "countries").any fun target =>
        !fk.primaryKey && fk.unique && fk.receiver.keyForm == target.primaryKey.receiver.keyForm)
          = true) (by decide +kernel)
  obtain ⟨-, hreferences, -⟩ := Schema.foreignKey_types h .mysql
  obtain ⟨fk, target, hfk, htable, -, -, htype⟩ := hreferences t ht r hr
  rw [hcolumn] at hfk
  rw [htarget] at htable
  simp only [hfk, htable, Option.any_some, Bool.and_eq_true, Bool.not_eq_true', beq_iff_eq] at hcase
  obtain ⟨⟨hnot, hunique⟩, hreceiver⟩ := hcase
  refine ⟨s, h, t, ht, hname, fk, target, hfk, htable, (htype hnot hreceiver).2 ?_⟩
  rintro ⟨-, -, hplain⟩
  rw [hunique] at hplain
  cases hplain

/-- The country of a city is a text of another type than the code that it refers to. -/
theorem city_unbounded : ∃ s, Schema.ofDeclaration declaration = .ok s ∧ ∃ t ∈ s.tables,
    ∃ fk ∈ t.columns, ∃ target ∈ s.tables,
      t.references = [⟨"in", fk.name, target.name, target.primaryKey.name⟩] ∧
      fk.primaryKey = false ∧ fk.receiver = target.primaryKey.receiver ∧
      Dialect.columnType .mysql fk ≠ Dialect.columnType .mysql target.primaryKey ∧
      ((Command.createTable target).statement .mysql).sql =
        "CREATE TABLE IF NOT EXISTS `countries` (`code` VARCHAR(255) PRIMARY KEY)" ∧
      ((Command.createTable t).statement .mysql).sql =
        "CREATE TABLE IF NOT EXISTS `cities` "
          ++ "(`id` BIGINT AUTO_INCREMENT PRIMARY KEY, `country` TEXT NOT NULL, "
          ++ "FOREIGN KEY (`country`) REFERENCES `countries` (`code`))" :=
  exists_ok_of_decide (by decide +kernel)

end Atlas

end RecordGraph
