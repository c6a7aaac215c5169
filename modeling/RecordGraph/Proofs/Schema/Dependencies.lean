import RecordGraph.Connection.Script
import RecordGraph.Proofs.Connection.Later
import RecordGraph.Proofs.Schema.Resolved
import RecordGraph.Proofs.Schema.Sound

/-!
# Tables and what they refer to

Creating a schema sends a statement for each of its tables, then for each of its associations;
dropping it goes the other way. Both keep to the order of the declaration, so a table stands behind
what it refers to if it was declared behind it.

**Results.**
* `Schema.creates_parts`: the commands that create the tables and the associations of a schema that
  was resolved.
* `Part.Creates.foreignKey`: the text of such a command has a foreign key for each reference.
* `Connection.forM_run_logged`: commands that are run are sent in order, to the first that fails.
* `Schema.pairwise_parts_iff_ordered`: the parts of a schema stand behind what they refer to exactly
  when the tables are declared so. Associations always do.
* `Schema.acyclic_iff_exists_ordered`: there is such an order of the tables exactly when they refer
  to each other in no circle.
* `Schema.statements_ordered`: what is sent, and when it is in order.
-/
namespace RecordGraph

/-! ## What is created -/

/-- What a schema creates a table for. -/
inductive Part where
  | table (t : Table)
  | association (a : Association)

namespace Part

def name : Part → String
  | .table t => t.name
  | .association a => a.name

/-- The names of the tables that a part has foreign keys into. -/
def targets : Part → List String
  | .table t => t.references.map (·.target)
  | .association a => [a.leftTable, a.rightTable]

/-- A foreign key of the one part leads to the other one. -/
def RefersTo (p q : Part) : Prop := ∃ t, q = .table t ∧ t.name ∈ p.targets

/-- The command that creates a part of a schema. -/
inductive Creates (s : Schema) : Part → Command → Prop where
  | table (t : Table) : Creates s (.table t) (.createTable t)
  | association {a : Association} {left right : Table} (hleft : s.table? a.leftTable = some left)
    (hright : s.table? a.rightTable = some right) :
    Creates s (.association a) (.createAssociation a left.primaryKey right.primaryKey)

def creation (s : Schema) : Part → Except Error Command
  | .table t => .ok (.createTable t)
  | .association a => s.associationCreation a

/-- The command that drops a part. -/
def drop (p : Part) : Command := .dropTable p.name

end Part

namespace Schema

/-- The tables of a schema in the order of their declaration, then its associations. -/
def parts (s : Schema) : List Part := s.tables.map .table ++ s.associations.map .association

theorem creation_eq (s : Schema) : s.creation = s.parts.map (Part.creation s) := by
  rw [creation, parts, List.map_append, List.map_map, List.map_map]
  rfl

theorem destruction_eq (s : Schema) : s.destruction = s.parts.reverse.map Part.drop := by
  rw [destruction, parts, List.reverse_append, List.map_append, ← List.map_reverse,
    ← List.map_reverse, List.map_map, List.map_map]
  rfl

variable {d : SchemaDecl} {s : Schema}

theorem mem_names_of_table? {name : String} (h : (d.table? name).isSome = true) :
    name ∈ d.tables.map (·.name) := by
  obtain ⟨t, ht⟩ := Option.isSome_iff_exists.1 h
  exact List.mem_map.2 ⟨t, List.mem_of_find?_eq_some ht, by simpa using List.find?_some ht⟩

/-- The tables of a resolved schema refer to the tables that their declarations name. -/
theorem map_targets_declared (h : ofDeclaration d = .ok s) :
    s.tables.map (fun t => (t.name, t.references.map (·.target))) =
      d.tables.map fun t => (t.name, t.references.map (·.targetTable)) := by
  obtain ⟨us, hn, hus, hr, -, -, rfl⟩ := ofDeclaration_eq_ok_iff.1 h
  have hc : ∀ t ∈ d.tables, t.Consistent := fun t ht =>
    let ⟨_, _, hu⟩ := exists_of_mem_left hus ht
    (tableOf_eq_ok hu).1
  have htarget : ∀ (t : TableDecl) (r : ReferenceDecl) (u : Reference),
      d.referenceOf? t r = some u → u.target = r.targetTable := by
    intro t r u hu
    obtain ⟨fk, -, hu⟩ := Option.bind_eq_some_iff.1 hu
    obtain ⟨key, -, hu⟩ := Option.bind_eq_some_iff.1 hu
    rw [← Option.some_inj.1 hu]
  rw [List.map_map, ← List.forall₂_eq_eq_eq, List.forall₂_map_left_iff, List.forall₂_map_right_iff]
  have hwires : List.Forall₂ (fun t u => Wires d t (wired (wiresOf d) u)) d.tables us := by
    refine (forall₂_and_mem_zip hus).imp fun t u ⟨hu, hmem⟩ => ?_
    obtain ⟨-, hdeclares, hrefs, hrevs, hmms⟩ := tableOf_eq_ok hu
    exact wires_wired hn hc hr (List.of_mem_zip hmem).1 hdeclares hrefs hrevs hmms
  refine hwires.flip.imp fun u t hw => ?_
  show ((wired (wiresOf d) u).name, _) = _
  rw [hw.name, map_eq_of_map_some (htarget t) hw.references]

theorem exists_table? {name : String} (h : name ∈ s.tables.map (·.name)) :
    ∃ t, s.table? name = some t := by
  obtain ⟨t, ht, rfl⟩ := List.mem_map.1 h
  exact Option.isSome_iff_exists.1 (List.find?_isSome.2 ⟨t, ht, beq_self_eq_true t.name⟩)

/-- The tables that a part of a resolved schema refers to are tables of it. -/
theorem exists_target (h : ofDeclaration d = .ok s) {p : Part} (hp : p ∈ s.parts) {name : String}
    (hname : name ∈ p.targets) : ∃ t, s.table? name = some t := by
  have hmap := map_targets_declared h
  have hnames : s.tables.map (·.name) = d.tables.map (·.name) := by
    have := congrArg (List.map Prod.fst) hmap
    rwa [List.map_map, List.map_map] at this
  have hdeclared {name : String} (hd : (d.table? name).isSome = true) :
      ∃ t, s.table? name = some t :=
    exists_table? (hnames ▸ mem_names_of_table? hd)
  obtain ⟨us, -, -, hr, ha, -, rfl⟩ := ofDeclaration_eq_ok_iff.1 h
  rcases List.mem_append.1 hp with hp | hp
  · obtain ⟨u, hu, rfl⟩ := List.mem_map.1 hp
    obtain ⟨t, ht, heq⟩ := List.mem_map.1 (hmap ▸ List.mem_map_of_mem hu)
    rw [Part.targets, ← (Prod.mk.inj heq).2] at hname
    obtain ⟨r, hmem, rfl⟩ := List.mem_map.1 hname
    exact hdeclared (hr t ht r hmem).1
  · obtain ⟨a, hmem, rfl⟩ := List.mem_map.1 hp
    obtain ⟨b, hb, rfl⟩ := List.mem_map.1 hmem
    obtain ⟨hleft, hright⟩ := ha b hb
    rcases List.mem_cons.1 hname with rfl | hname
    · exact hdeclared hleft
    · obtain rfl := List.mem_singleton.1 hname
      exact hdeclared hright

/-- A resolved schema has a command for each of its parts. -/
theorem creates_parts (h : ofDeclaration d = .ok s) :
    ∃ cs, s.creation = cs.map .ok ∧ List.Forall₂ (Part.Creates s) s.parts cs := by
  have hrequire {name : String} {t : Table} (ht : s.table? name = some t) :
      require s.tables name = .ok t := by
    rw [table?] at ht
    rw [require, ht]
  have hpart : ∀ p ∈ s.parts, ∃ c, p.creation s = .ok c ∧ p.Creates s c := by
    intro p hp
    cases p with
    | table t => exact ⟨_, rfl, .table t⟩
    | association a =>
      have hleft : a.leftTable ∈ (Part.association a).targets := List.mem_cons_self
      have hright : a.rightTable ∈ (Part.association a).targets :=
        List.mem_cons_of_mem _ List.mem_cons_self
      obtain ⟨left, hleft⟩ := exists_target h hp hleft
      obtain ⟨right, hright⟩ := exists_target h hp hright
      refine ⟨_, ?_, .association hleft hright⟩
      rw [Part.creation, associationCreation, hrequire hleft, hrequire hright]
      rfl
  obtain ⟨cs, hcs⟩ := exists_forall₂ hpart
  refine ⟨cs, ?_, hcs.imp fun p c hc => hc.2⟩
  rw [creation_eq, ← List.forall₂_eq_eq_eq, List.forall₂_map_left_iff, List.forall₂_map_right_iff]
  exact hcs.imp fun p c hc => hc.1

end Schema

/-! ## Foreign keys -/

/-- The statement of a command has a foreign key into the table of the name. -/
def Command.HasForeignKey (c : Command) (d : Dialect) (name : String) : Prop :=
  ∃ column key before after,
    (c.statement d).sql = before ++ d.foreignKey column name key ++ after

namespace Part

theorem exists_of_mem_intercalate {text : String} : ∀ {texts : List String}, text ∈ texts →
    ∃ before after, "".intercalate texts = before ++ text ++ after
  | [t], h => by
    obtain rfl := List.mem_singleton.1 h
    exact ⟨"", "", by rw [String.intercalate_singleton, String.empty_append, String.append_empty]⟩
  | t :: u :: texts, h => by
    rw [String.intercalate_cons_cons, String.append_empty]
    rcases List.mem_cons.1 h with rfl | h
    · exact ⟨"", _, by rw [String.empty_append]⟩
    · obtain ⟨before, after, heq⟩ := exists_of_mem_intercalate h
      exact ⟨t ++ before, after, by simp only [heq, String.append_assoc]⟩

/-- The statement that creates a part has a foreign key into each table that the part refers to. -/
theorem Creates.foreignKey {s : Schema} {p : Part} {c : Command} (h : p.Creates s c) (d : Dialect)
    {name : String} (hname : name ∈ p.targets) : c.HasForeignKey d name := by
  have htext (text : String) : ((Sql.raw text).render d).sql = text := by
    simp [Sql.render, Sql.raw, Sql.textFrom]
  cases h with
  | table t =>
    obtain ⟨r, hr, rfl⟩ := List.mem_map.1 hname
    obtain ⟨before, after, heq⟩ := exists_of_mem_intercalate (List.mem_map_of_mem
      (f := fun r : Reference => ", " ++ d.foreignKey r.column r.target r.targetColumn) hr)
    refine ⟨r.column, r.targetColumn, d.createHead t.name
      ++ ", ".intercalate (t.columns.map d.columnDefinition) ++ before ++ ", ", after ++ ")", ?_⟩
    refine (htext _).trans ?_
    rw [Dialect.createTable, heq]
    simp only [String.append_assoc]
  | @association a left right hleft hright =>
    have hassoc (before key comma other close : String) :
        before ++ key ++ comma ++ other ++ close = before ++ key ++ (comma ++ other ++ close) := by
      simp only [String.append_assoc]
    rcases List.mem_cons.1 hname with rfl | hname
    · exact ⟨a.leftColumn, left.primaryKey.name, _, _, (htext _).trans (hassoc _ _ _ _ _)⟩
    · obtain rfl := List.mem_singleton.1 hname
      exact ⟨a.rightColumn, right.primaryKey.name, _, ")", htext _⟩

end Part

/-! ## What is sent -/

namespace Connection

variable {σ : Type} (db : Connection σ)

theorem logged_run (c : Command) (sent : List Command) (s : σ) :
    db.logged.run c (sent, s) = ((db.run c s).1, (sent ++ [c], (db.run c s).2)) := by
  rw [run, run, Session.bind_run, Session.bind_run, logged]
  dsimp only
  rcases db.execute c s with ⟨e | n, s'⟩ <;> rfl

/-- Commands are sent in order, to the first that fails. -/
theorem forM_run_logged : ∀ (cs : List Command) (sent : List Command) (s : σ),
    ∃ done, done <+: cs ∧ (cs.forM db.logged.run (sent, s)).2.1 = sent ++ done ∧
      ((cs.forM db.logged.run (sent, s)).1 = .ok () → done = cs)
  | [], sent, s => ⟨[], List.prefix_refl _, (List.append_nil sent).symm, fun _ => rfl⟩
  | c :: cs, sent, s => by
    rw [List.forM, Session.bind_run, logged_run]
    rcases hrun : db.run c s with ⟨e | ⟨⟩, s'⟩
    · exact ⟨[c], ⟨cs, rfl⟩, rfl, fun h => by cases h⟩
    · obtain ⟨done, hdone, hsent, hok⟩ := forM_run_logged cs (sent ++ [c]) s'
      refine ⟨c :: done, List.cons_prefix_cons.2 ⟨rfl, hdone⟩, ?_, fun h => ?_⟩
      · exact hsent.trans (List.append_assoc sent [c] done)
      · rw [hok h]

end Connection

/-! ## The order of declarations -/

namespace TableDecl

/-- Tables stand behind the other tables that they refer to. -/
def Ordered (tables : List TableDecl) : Prop :=
  tables.Pairwise fun t u => ∀ r ∈ t.references, r.targetTable ≠ u.name

/-- Tables that refer to no other table in a circle: they can be ranked above those that they refer
to. -/
def Acyclic (tables : List TableDecl) : Prop :=
  ∃ rank : String → Nat, ∀ t ∈ tables, ∀ r ∈ t.references,
    r.targetTable ≠ t.name → rank r.targetTable < rank t.name

/-- Where tables stand behind those that they refer to, their places rank them. -/
theorem Ordered.acyclic {tables : List TableDecl} (h : Ordered tables)
    (hn : (tables.map (·.name)).Nodup)
    (ht : ∀ t ∈ tables, ∀ r ∈ t.references, r.targetTable ∈ tables.map (·.name)) :
    Acyclic tables := by
  refine ⟨fun name => (tables.map (·.name)).idxOf name, fun t hmem r hr hne => ?_⟩
  obtain ⟨u, hu, htarget⟩ := List.mem_map.1 (ht t hmem r hr)
  obtain ⟨before, after, rfl⟩ := List.append_of_mem hmem
  have hafter : u ∉ after := fun hafter =>
    (List.pairwise_cons.1 (List.pairwise_append.1 h).2.1).1 u hafter r hr htarget.symm
  have hbefore : r.targetTable ∈ before.map (·.name) := by
    rcases List.mem_append.1 hu with hu | hu
    · exact htarget ▸ List.mem_map_of_mem hu
    · rcases List.mem_cons.1 hu with rfl | hu
      · exact absurd htarget.symm hne
      · exact absurd hu hafter
  rw [List.map_append, List.map_cons] at hn ⊢
  have hself : t.name ∉ before.map (·.name) := fun hself =>
    (List.nodup_append.1 hn).2.2 _ hself _ List.mem_cons_self rfl
  beta_reduce
  rw [List.idxOf_append_of_mem hbefore, List.idxOf_append_of_notMem hself]
  exact Nat.lt_of_lt_of_le (List.idxOf_lt_length_of_mem hbefore) (Nat.le_add_right _ _)

/-- Tables in the order of their ranks stand behind those that they refer to. -/
theorem Acyclic.exists_ordered {tables : List TableDecl} (h : Acyclic tables)
    (hn : (tables.map (·.name)).Nodup) : ∃ sorted, sorted.Perm tables ∧ Ordered sorted := by
  obtain ⟨rank, hrank⟩ := h
  let below (t u : TableDecl) : Bool := decide (rank t.name ≤ rank u.name)
  have hperm := tables.mergeSort_perm below
  have hsorted : (tables.mergeSort below).Pairwise fun t u => below t u = true :=
    List.pairwise_mergeSort (by simpa [below] using fun _ _ _ => Nat.le_trans)
      (by simpa [below] using fun _ _ => Nat.le_total _ _) tables
  have hdistinct := List.pairwise_map.1 ((hperm.map (·.name)).nodup_iff.2 hn)
  refine ⟨_, hperm, (hsorted.and hdistinct).imp_of_mem ?_⟩
  intro t u ht _ ⟨hle, hne⟩ r hr htarget
  have hlt := hrank t (hperm.mem_iff.1 ht) r hr (htarget ▸ hne.symm)
  rw [htarget] at hlt
  exact Nat.not_lt.2 (of_decide_eq_true hle) hlt

end TableDecl

/-! ## The order of statements -/

namespace Schema

variable {d : SchemaDecl} {s : Schema}

/-- Associations stand behind their tables, and tables refer to none of them: parts refer to no
later one exactly when tables do. -/
theorem pairwise_parts_iff : s.parts.Pairwise (fun p q => ¬p.RefersTo q) ↔
    s.tables.Pairwise fun t u => u.name ∉ t.references.map (·.target) := by
  have hassociation (p : Part) (a : Association) : ¬p.RefersTo (.association a) := by
    rintro ⟨t, ht, -⟩
    cases ht
  have htable (t u : Table) : ¬(Part.table t).RefersTo (.table u) ↔
      u.name ∉ t.references.map (·.target) := by
    refine not_congr ⟨?_, fun h => ⟨u, rfl, h⟩⟩
    rintro ⟨_, ⟨⟩, h⟩
    exact h
  rw [parts, List.pairwise_append, List.pairwise_map, List.pairwise_map]
  simp only [htable]
  refine ⟨fun h => h.1, fun h => ⟨h, ?_, ?_⟩⟩
  · exact List.pairwise_of_forall fun a b => hassociation _ b
  · intro p _ q hq
    obtain ⟨a, -, rfl⟩ := List.mem_map.1 hq
    exact hassociation p a

/-- Parts refer to no later one exactly when the declaration is ordered. -/
theorem pairwise_parts_iff_ordered (h : ofDeclaration d = .ok s) :
    s.parts.Pairwise (fun p q => ¬p.RefersTo q) ↔ TableDecl.Ordered d.tables := by
  have htables := congrArg
    (List.Pairwise fun x y : String × List String => y.1 ∉ x.2) (map_targets_declared h)
  rw [List.pairwise_map, List.pairwise_map] at htables
  rw [pairwise_parts_iff, htables, TableDecl.Ordered]
  simp only [List.mem_map, not_exists, not_and, ne_eq]

/-- The tables of a schema that was resolved can be declared in order exactly when they refer to
each other in no circle. -/
theorem acyclic_iff_exists_ordered (h : ofDeclaration d = .ok s) :
    TableDecl.Acyclic d.tables ↔ ∃ tables, tables.Perm d.tables ∧ TableDecl.Ordered tables := by
  obtain ⟨_, hn, -, hr, -, -, -⟩ := ofDeclaration_eq_ok_iff.1 h
  refine ⟨fun hacyclic => hacyclic.exists_ordered hn, fun ⟨tables, hperm, hordered⟩ => ?_⟩
  have hnames := hperm.map (·.name)
  obtain ⟨rank, hrank⟩ := hordered.acyclic (hnames.nodup_iff.2 hn) fun t ht r hmem =>
    hnames.mem_iff.2 (mem_names_of_table? (hr t (hperm.mem_iff.1 ht) r hmem).1)
  exact ⟨rank, fun t ht => hrank t (hperm.mem_iff.2 ht)⟩

theorem createSchema_eq {σ : Type} (db : Connection σ) {cs : List Command}
    (h : s.creation = cs.map .ok) : db.createSchema s = cs.forM db.run := by
  rw [Connection.createSchema, h]
  clear h
  induction cs with
  | nil => rfl
  | cons c cs ih =>
    rw [List.map_cons, List.forM, List.forM, ih]
    rfl

/-- The statements that create a schema are sent in the order of its parts, those that drop it the
other way, to the first that fails. Every foreign key is into a table of the schema. Tables are
created behind the tables that they refer to exactly when they are declared so, and the same goes
for dropping: nothing else puts them in order. Some order of the declaration does so exactly when
the tables refer to each other in no circle. -/
theorem statements_ordered {σ : Type} (db : Connection σ) (st : σ) (h : ofDeclaration d = .ok s) :
    (∃ cs, List.Forall₂ (fun p c => p.Creates s c ∧
        ∀ dialect, ∀ name ∈ p.targets, c.HasForeignKey dialect name) s.parts cs ∧
      ∃ sent, sent <+: cs ∧ (db.logged.createSchema s ([], st)).2.1 = sent ∧
        ((db.logged.createSchema s ([], st)).1 = .ok () → sent = cs)) ∧
    (∃ sent, sent <+: s.parts.reverse.map Part.drop ∧
      (db.logged.destroySchema s ([], st)).2.1 = sent ∧
      ((db.logged.destroySchema s ([], st)).1 = .ok () → sent = s.parts.reverse.map Part.drop)) ∧
    (∀ p ∈ s.parts, ∀ name ∈ p.targets, ∃ t, Part.table t ∈ s.parts ∧ t.name = name) ∧
    (s.parts.Pairwise (fun p q => ¬p.RefersTo q) ↔ TableDecl.Ordered d.tables) ∧
    (s.parts.reverse.Pairwise (fun p q => ¬q.RefersTo p) ↔ TableDecl.Ordered d.tables) ∧
    (TableDecl.Acyclic d.tables ↔
      ∃ tables, tables.Perm d.tables ∧ TableDecl.Ordered tables) := by
  obtain ⟨cs, hcs, hparts⟩ := creates_parts h
  refine ⟨⟨cs, hparts.imp fun p c hc => ⟨hc, fun dialect name hname => hc.foreignKey dialect hname⟩,
    ?_⟩, ?_, fun p hp name hname => ?_, pairwise_parts_iff_ordered h, ?_,
    acyclic_iff_exists_ordered h⟩
  · obtain ⟨sent, hsent, heq, hok⟩ := db.forM_run_logged cs [] st
    rw [createSchema_eq db.logged hcs]
    exact ⟨sent, hsent, heq, hok⟩
  · obtain ⟨sent, hsent, heq, hok⟩ := db.forM_run_logged (s.parts.reverse.map Part.drop) [] st
    rw [Connection.destroySchema, destruction_eq]
    exact ⟨sent, hsent, heq, hok⟩
  · obtain ⟨t, ht⟩ := exists_target h hp hname
    have hmem : Part.table t ∈ s.parts :=
      List.mem_append_left _ (List.mem_map_of_mem (List.mem_of_find?_eq_some ht))
    exact ⟨t, hmem, by simpa using List.find?_some ht⟩
  · rw [List.pairwise_reverse]
    exact pairwise_parts_iff_ordered h

end Schema

/-! ## The library -/

namespace Library

/-- The library with books in front of the authors that they refer to. -/
def reversed : SchemaDecl := { declaration with tables := declaration.tables.reverse }

/-- The library declares its tables in order, and so its statements are in order. -/
theorem statements_inOrder : ∃ s, Schema.ofDeclaration declaration = .ok s ∧
    s.parts.map Part.name = ["authors", "books", "tags", "book_tags"] ∧
    s.parts.Pairwise (fun p q => ¬p.RefersTo q) ∧
    s.parts.reverse.Pairwise (fun p q => ¬q.RefersTo p) := by
  obtain ⟨s, h, hnames⟩ : ∃ s, Schema.ofDeclaration declaration = .ok s ∧
      s.parts.map Part.name = ["authors", "books", "tags", "book_tags"] :=
    exists_ok_of_decide (by decide +kernel)
  have hordered : TableDecl.Ordered declaration.tables := by
    unfold TableDecl.Ordered
    decide
  obtain ⟨-, -, -, hcreated, hdropped, -⟩ :=
    Schema.statements_ordered (Script.connection .postgresql) (Script.start []) h
  exact ⟨s, h, hnames, hcreated.2 hordered, hdropped.2 hordered⟩

/-- The tables of the reversed library refer to each other in no circle, but the books are created
in front of the authors, with a foreign key into them, and dropped behind them. -/
theorem statements_outOfOrder : TableDecl.Acyclic reversed.tables ∧
    ∃ s, Schema.ofDeclaration reversed = .ok s ∧
      ((Script.connection .postgresql).createSchema s (Script.start [])).2.log = [
        .execute ⟨"CREATE TABLE IF NOT EXISTS \"tags\" (\"id\" BIGSERIAL PRIMARY KEY, "
          ++ "\"label\" TEXT NOT NULL)", []⟩,
        .execute ⟨"CREATE TABLE IF NOT EXISTS \"books\" (\"id\" BIGSERIAL PRIMARY KEY, "
          ++ "\"title\" TEXT NOT NULL, \"author_id\" BIGINT, \"version\" BIGINT NOT NULL, "
          ++ "FOREIGN KEY (\"author_id\") REFERENCES \"authors\" (\"id\"))", []⟩,
        .execute ⟨"CREATE TABLE IF NOT EXISTS \"authors\" (\"id\" BIGSERIAL PRIMARY KEY, "
          ++ "\"name\" TEXT NOT NULL)", []⟩,
        .execute ⟨"CREATE TABLE IF NOT EXISTS \"book_tags\" (\"book_id\" BIGINT NOT NULL, "
          ++ "\"tag_id\" BIGINT NOT NULL, PRIMARY KEY (\"book_id\", \"tag_id\"), "
          ++ "FOREIGN KEY (\"book_id\") REFERENCES \"books\" (\"id\"), "
          ++ "FOREIGN KEY (\"tag_id\") REFERENCES \"tags\" (\"id\"))", []⟩] ∧
      ((Script.connection .postgresql).destroySchema s (Script.start [])).2.log =
        ["book_tags", "authors", "books", "tags"].map fun name =>
          .execute ⟨"DROP TABLE IF EXISTS \"" ++ name ++ "\"", []⟩ := by
  refine ⟨⟨fun name => if name = "books" then 1 else 0, by decide⟩, ?_⟩
  exact exists_ok_of_decide (by decide +kernel)

end Library

end RecordGraph
