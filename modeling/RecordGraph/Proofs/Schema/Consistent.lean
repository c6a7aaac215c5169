import RecordGraph.Proofs.Schema.Sound

/-!
# Consistent declarations

What a declaration has to satisfy, said of the declaration alone, and the first pass over it, which
resolves every table by itself.

* `TableDecl.Consistent`, `SchemaDecl.Consistent`: declarations without a fault.
* `Schema.columnsOf_eq_ok_iff`: which columns are resolved, and to what.
* `Schema.tableOf_eq_ok`, `Schema.exists_tableOf`: the tables that are resolved are the
  consistent ones.
* `Schema.tablesOf_eq_ok_iff`: so are lists of tables with different names.
-/
namespace RecordGraph

/-- The name of the field of a column. -/
def ColumnDecl.field (c : ColumnDecl) : String := c.identifier.getD c.name

/-- Columns that a table may declare together. -/
def ColumnDecl.Apart (a b : ColumnDecl) : Prop := a.name ≠ b.name ∧ a.field ≠ b.field

namespace TableDecl

/-- A declared column by its name, else by its field. -/
def column? (t : TableDecl) (key : String) : Option ColumnDecl :=
  t.columns.find? (·.name == key) <|> t.columns.find? (·.field == key)

/-- The first column that is marked as the key. -/
def key? (t : TableDecl) : Option ColumnDecl := t.columns.find? (·.primaryKey)

/-- The columns of a table are without a fault. -/
structure Consistent (t : TableDecl) : Prop where
  columns : t.columns.Pairwise ColumnDecl.Apart
  key : (t.columns.filter (·.primaryKey)).length = 1
  locks : (t.columns.filter (·.role.isLock)).length ≤ 1
  lock_integer : ∀ c ∈ t.columns, c.role.isLock = true → c.receiver.intBits?.isSome = true

end TableDecl

namespace SchemaDecl

def table? (d : SchemaDecl) (name : String) : Option TableDecl := d.tables.find? (·.name == name)

/-- Every declared reference with its table. -/
def references (d : SchemaDecl) : List (TableDecl × ReferenceDecl) :=
  d.tables.flatMap fun t => t.references.map (t, ·)

/-- The names of the relations that a declaration gives to a table: those of its references, those
that references of any table derive onto it, and those of its sides of associations. -/
def relationNames (d : SchemaDecl) (t : TableDecl) : List String :=
  t.references.map (·.identifier)
    ++ (d.references.filter (·.2.targetTable == t.name)).filterMap (·.2.reverseIdentifier)
    ++ d.associations.flatMap fun a =>
      (if a.leftTable = t.name then [a.leftIdentifier] else [])
        ++ (if a.rightTable = t.name then [a.rightIdentifier] else [])

/-- A declaration without a fault. -/
structure Consistent (d : SchemaDecl) : Prop where
  names : (d.tables.map (·.name)).Nodup
  tables : ∀ t ∈ d.tables, t.Consistent
  references : ∀ t ∈ d.tables, ∀ r ∈ t.references,
    (d.table? r.targetTable).isSome = true ∧ (t.column? r.column).isSome = true
  associations : ∀ a ∈ d.associations,
    (d.table? a.leftTable).isSome = true ∧ (d.table? a.rightTable).isSome = true
  relations : ∀ t ∈ d.tables, (d.relationNames t).Nodup

end SchemaDecl

namespace Schema

/-! ## Columns -/

theorem isLock_columnOf (c : ColumnDecl) : (columnOf c).isLock = c.role.isLock := rfl

/-- The columns after those already resolved are each resolved by itself. -/
theorem columnsOf_eq_ok_iff {table : String} :
    ∀ {decls : List ColumnDecl} {done : List ColumnDecl} {columns : List Column},
      columnsOf table (done.map columnOf) decls = .ok columns ↔
        (∀ c ∈ decls, (∀ e ∈ done, e.Apart c) ∧
            (c.role.isLock = true → c.receiver.intBits?.isSome = true)) ∧
          decls.Pairwise ColumnDecl.Apart ∧ columns = (done ++ decls).map columnOf
  | [], done, columns => by
    simp only [columnsOf, Except.ok.injEq, List.append_nil]
    exact ⟨fun h => ⟨by simp, .nil, h.symm⟩, fun h => h.2.2.symm⟩
  | c :: rest, done, columns => by
    have hany : ((done.map columnOf).any fun e =>
        e.name == (columnOf c).name || e.identifier == (columnOf c).identifier) = true ↔
          ¬∀ e ∈ done, e.Apart c := by
      simp only [List.any_map, List.any_eq_true, Function.comp_apply, Bool.or_eq_true, beq_iff_eq,
        not_forall, ColumnDecl.Apart, not_and_or, not_not, exists_prop]
      exact Iff.rfl
    have hdone : done.map columnOf ++ [columnOf c] = (done ++ [c]).map columnOf := by
      rw [List.map_append, List.map_singleton]
    simp only [columnsOf, List.forall_mem_cons, List.pairwise_cons]
    split
    · rename_i h
      simp [hany.1 h]
    · rename_i h
      have hapart : ∀ e ∈ done, e.Apart c := not_not.1 (mt hany.2 h)
      split
      · rename_i hlock
        rw [Bool.and_eq_true, isLock_columnOf, Option.isNone_iff_eq_none] at hlock
        have hnone : c.receiver.intBits? = none := hlock.2
        simp [hlock.1, hnone]
      · rename_i hlock
        have hint : c.role.isLock = true → c.receiver.intBits?.isSome = true := by
          intro h
          rw [← isLock_columnOf] at h
          rw [h, Bool.true_and, Option.isNone_iff_eq_none] at hlock
          exact Option.isSome_iff_ne_none.2 hlock
        rw [hdone, columnsOf_eq_ok_iff]
        simp only [List.forall_mem_append, List.forall_mem_singleton, List.append_assoc,
          List.singleton_append]
        constructor
        · rintro ⟨hrest, hpair, rfl⟩
          exact ⟨⟨⟨hapart, hint⟩, fun e he => ⟨(hrest e he).1.1, (hrest e he).2⟩⟩,
            ⟨fun e he => (hrest e he).1.2, hpair⟩, rfl⟩
        · rintro ⟨⟨-, hrest⟩, ⟨hc, hpair⟩, rfl⟩
          exact ⟨fun e he => ⟨⟨(hrest e he).1, hc e he⟩, (hrest e he).2⟩, hpair, rfl⟩

/-- There are as many places of keys as columns are marked. -/
theorem length_keyIndices (columns : List Column) :
    (keyIndices columns).length = (columns.filter (·.primaryKey)).length := by
  have hcolumns : (List.range columns.length).map (columns[·]?) = columns.map some := by
    refine List.ext_getElem (by simp) fun i hi _ => ?_
    have hlt : i < columns.length := by simpa using hi
    simp [List.getElem?_eq_getElem hlt]
  have hfilter : ((columns.map some).filter fun c => (c.map (·.primaryKey)).getD false).length =
      (columns.filter (·.primaryKey)).length := by
    rw [List.filter_map, List.length_map]
    rfl
  rw [← hfilter, ← hcolumns, List.filter_map, List.length_map]
  rfl

/-! ## Tables -/

/-- A table as its declaration says, apart from its relations. -/
structure Declares (database : String) (t : TableDecl) (u : Table) : Prop where
  database : u.database = database
  name : u.name = t.name
  columns : u.columns = t.columns.map columnOf

/-- The columns of a resolved table are consistent, and there are no relations yet. -/
theorem tableOf_eq_ok {database : String} {t : TableDecl} {u : Table}
    (h : tableOf database t = .ok u) :
    t.Consistent ∧ Declares database t u ∧ u.references = [] ∧ u.reverses = [] ∧
      u.manyManys = [] := by
  obtain ⟨columns, hcolumns, h⟩ := bind_eq_ok_iff.1 h
  obtain ⟨hc, hpair, hmap⟩ := (@columnsOf_eq_ok_iff _ _ [] _).1 hcolumns
  rw [List.nil_append] at hmap
  split at h
  · cases h
  · rename_i i hkeys
    split at h
    · cases h
    · rename_i hlocks
      cases h
      have hone : (columns.filter (·.primaryKey)).length = 1 := by
        rw [← length_keyIndices, hkeys, List.length_singleton]
      subst hmap
      rw [List.filter_map, List.length_map] at hone hlocks
      exact ⟨⟨hpair, hone, Nat.le_of_not_lt hlocks, fun c hm => (hc c hm).2⟩, ⟨rfl, rfl, rfl⟩,
        rfl, rfl, rfl⟩
  · cases h

theorem exists_tableOf {database : String} {t : TableDecl} (h : t.Consistent) :
    ∃ u, tableOf database t = .ok u := by
  have hcolumns : columnsOf t.name [] t.columns = .ok (t.columns.map columnOf) :=
    (@columnsOf_eq_ok_iff _ _ [] _).2
      ⟨fun c hc => ⟨by simp, h.lock_integer c hc⟩, h.columns, rfl⟩
  have hone : (keyIndices (t.columns.map columnOf)).length = 1 := by
    rw [length_keyIndices, List.filter_map, List.length_map]
    exact h.key
  have hlocks : ¬1 < ((t.columns.map columnOf).filter (·.isLock)).length := by
    rw [List.filter_map, List.length_map]
    exact Nat.not_lt.2 h.locks
  unfold tableOf
  rw [hcolumns]
  dsimp only [bind, Except.bind]
  split
  · rename_i hkeys
    rw [hkeys] at hone
    cases hone
  · rw [if_neg hlocks]
    exact ⟨_, rfl⟩
  · rename_i hkeys
    rw [hkeys] at hone
    simp at hone

/-- The first pass resolves every table by itself; their names are different. -/
theorem tablesOf_eq_ok_iff {database : String} :
    ∀ {decls : List TableDecl} {done tables : List Table},
      tablesOf database done decls = .ok tables ↔
        (∀ t ∈ decls, t.name ∉ done.map (·.name)) ∧ (decls.map (·.name)).Nodup ∧
          ∃ us, List.Forall₂ (fun t u => tableOf database t = .ok u) decls us ∧ tables = done ++ us
  | [], done, tables => by
    simp only [tablesOf, Except.ok.injEq]
    constructor
    · rintro rfl
      exact ⟨by simp, .nil, [], .nil, (List.append_nil _).symm⟩
    · rintro ⟨-, -, us, hus, rfl⟩
      cases hus
      exact (List.append_nil _).symm
  | t :: rest, done, tables => by
    have hnew : (find? done t.name).isSome = true ↔ t.name ∈ done.map (·.name) := by
      rw [find?, List.find?_isSome, List.mem_map]
      exact exists_congr fun u => and_congr_right fun _ => beq_iff_eq
    simp only [tablesOf, List.forall_mem_cons, List.map_cons, List.nodup_cons]
    split
    · rename_i h
      simp [hnew.1 h]
    · rename_i h
      have hname : t.name ∉ done.map (·.name) := mt hnew.2 h
      rw [bind_eq_ok_iff]
      simp only [tablesOf_eq_ok_iff, List.map_append, List.mem_append, List.map_cons, List.map_nil,
        List.mem_singleton, not_or]
      constructor
      · rintro ⟨u, hu, hrest, hnodup, us, hus, rfl⟩
        rw [(tableOf_eq_ok hu).2.1.name] at hrest
        refine ⟨⟨hname, fun e he => (hrest e he).1⟩, ⟨fun hm => ?_, hnodup⟩, u :: us,
          .cons hu hus, by simp⟩
        obtain ⟨e, he, hen⟩ := List.mem_map.1 hm
        exact (hrest e he).2 hen
      · rintro ⟨⟨-, hrest⟩, ⟨hnot, hnodup⟩, us, hus, rfl⟩
        obtain ⟨u, us, hu, hrestus, rfl⟩ := List.forall₂_cons_left_iff.1 hus
        refine ⟨u, hu, fun e he => ⟨hrest e he, fun hen => hnot ?_⟩, hnodup, us, hrestus, by simp⟩
        rw [← (tableOf_eq_ok hu).2.1.name, ← hen]
        exact List.mem_map_of_mem he

end Schema

end RecordGraph
