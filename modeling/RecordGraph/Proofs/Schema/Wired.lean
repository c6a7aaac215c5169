import Mathlib.Data.Option.Basic
import RecordGraph.Proofs.Schema.Consistent

/-!
# Wired schemas

The second pass puts relations on tables one after the other, each under a name that the table does
not have yet. Which relations these are is settled by the declaration: the pass changes neither
columns nor keys.

* `Schema.foldlM_wire_eq_ok_iff`: relations are put on tables if no table gets a name twice.
* `Schema.wireReference_eq_ok_iff`, `Schema.wireAssociation_eq_ok_iff`: what is put for a
  declared reference and a declared association.
* `Schema.wireAll_eq_ok_iff`: the second pass puts them all, where both ends of each exist.
-/
namespace RecordGraph

/-! ## The relations of a declaration -/

namespace SchemaDecl

/-- The reference that a declared one becomes. -/
def referenceOf? (d : SchemaDecl) (t : TableDecl) (r : ReferenceDecl) : Option Reference := do
  let fk ← t.column? r.column
  let key ← (d.table? r.targetTable).bind TableDecl.key?
  some ⟨r.identifier, fk.name, r.targetTable, key.name⟩

/-- The relation that a declared reference derives onto its target. -/
def reverseOf? (t : TableDecl) (r : ReferenceDecl) : Option Reverse := do
  let identifier ← r.reverseIdentifier
  let fk ← t.column? r.column
  some ⟨identifier, t.name, fk.name, fk.unique || fk.primaryKey⟩

/-- The references, of any table, that derive a relation onto a table. -/
def reversing (d : SchemaDecl) (name : String) : List (TableDecl × ReferenceDecl) :=
  d.references.filter fun p => p.2.targetTable == name && p.2.reverseIdentifier.isSome

/-- The sides of associations at a table. -/
def manyManysOf (d : SchemaDecl) (name : String) : List ManyMany :=
  d.associations.flatMap fun a =>
    (if a.leftTable = name then
      [⟨a.leftIdentifier, a.table, a.leftColumn, a.rightColumn, a.rightTable⟩] else [])
    ++ (if a.rightTable = name then
      [⟨a.rightIdentifier, a.table, a.rightColumn, a.leftColumn, a.leftTable⟩] else [])

/-- Both ends of a declared reference exist. -/
def Resolves (d : SchemaDecl) (t : TableDecl) (r : ReferenceDecl) : Prop :=
  (d.table? r.targetTable).isSome = true ∧ (t.column? r.column).isSome = true

theorem table?_of_mem {d : SchemaDecl} (hn : (d.tables.map (·.name)).Nodup) {t : TableDecl}
    (ht : t ∈ d.tables) : d.table? t.name = some t := by
  cases h : d.table? t.name with
  | none => exact absurd (beq_self_eq_true t.name) (List.find?_eq_none.1 h t ht)
  | some u =>
    have hname : u.name = t.name := by simpa using List.find?_some h
    rw [List.inj_on_of_nodup_map hn (List.mem_of_find?_eq_some h) ht hname]

end SchemaDecl

namespace Schema

/-- `u` is the table that `t` declares, with exactly the relations that the declaration gives it. -/
structure Wires (d : SchemaDecl) (t : TableDecl) (u : Table) : Prop extends
    Declares d.database t u where
  key : t.key?.map columnOf = some u.primaryKey
  references : t.references.map (d.referenceOf? t) = u.references.map some
  reverses : (d.reversing t.name).map (fun p => SchemaDecl.reverseOf? p.1 p.2) =
    u.reverses.map some
  manyManys : u.manyManys = d.manyManysOf t.name

/-- A relation that is put on a table. -/
inductive Wire where
  | reference (r : Reference)
  | reverse (r : Reverse)
  | manyMany (m : ManyMany)

namespace Wire

def identifier : Wire → String
  | reference r => r.identifier
  | reverse r => r.identifier
  | manyMany m => m.identifier

def add : Wire → Table → Table
  | reference r => addReference r
  | reverse r => addReverse r
  | manyMany m => addManyMany m

def reference? : Wire → Option Reference
  | reference r => some r
  | _ => none

def reverse? : Wire → Option Reverse
  | reverse r => some r
  | _ => none

def manyMany? : Wire → Option ManyMany
  | manyMany m => some m
  | _ => none

theorem extends_add (w : Wire) (t : Table) : t.Extends (w.add t) w.identifier := by
  cases w with
  | reference r => exact addReference_extends r t
  | reverse r => exact addReverse_extends r t
  | manyMany m => exact addManyMany_extends m t

theorem database_add (w : Wire) (t : Table) : (w.add t).database = t.database := by
  cases w <;> rfl

theorem references_add (w : Wire) (t : Table) :
    (w.add t).references = t.references ++ w.reference?.toList := by
  cases w <;> simp [add, reference?, addReference, addReverse, addManyMany]

theorem reverses_add (w : Wire) (t : Table) :
    (w.add t).reverses = t.reverses ++ w.reverse?.toList := by
  cases w <;> simp [add, reverse?, addReference, addReverse, addManyMany]

theorem manyManys_add (w : Wire) (t : Table) :
    (w.add t).manyManys = t.manyManys ++ w.manyMany?.toList := by
  cases w <;> simp [add, manyMany?, addReference, addReverse, addManyMany]

/-- Relations that are put on a table one after the other. -/
def addAll (ws : List Wire) (t : Table) : Table := ws.foldl (fun t w => w.add t) t

theorem addAll_cons (w : Wire) (ws : List Wire) (t : Table) :
    addAll (w :: ws) t = addAll ws (w.add t) := rfl

theorem declares_addAll {database : String} {decl : TableDecl} {t : Table}
    (h : Declares database decl t) (ws : List Wire) : Declares database decl (addAll ws t) := by
  induction ws generalizing t with
  | nil => exact h
  | cons w ws ih =>
    have he := w.extends_add t
    exact ih ⟨(w.database_add t).trans h.database, he.name.trans h.name,
      he.columns.trans h.columns⟩

theorem references_addAll (ws : List Wire) (t : Table) :
    (addAll ws t).references = t.references ++ ws.filterMap reference? := by
  induction ws generalizing t with
  | nil => exact (List.append_nil _).symm
  | cons w ws ih =>
    rw [addAll_cons, ih, references_add, List.append_assoc, List.filterMap_cons]
    cases w.reference? <;> rfl

theorem reverses_addAll (ws : List Wire) (t : Table) :
    (addAll ws t).reverses = t.reverses ++ ws.filterMap reverse? := by
  induction ws generalizing t with
  | nil => exact (List.append_nil _).symm
  | cons w ws ih =>
    rw [addAll_cons, ih, reverses_add, List.append_assoc, List.filterMap_cons]
    cases w.reverse? <;> rfl

theorem manyManys_addAll (ws : List Wire) (t : Table) :
    (addAll ws t).manyManys = t.manyManys ++ ws.filterMap manyMany? := by
  induction ws generalizing t with
  | nil => exact (List.append_nil _).symm
  | cons w ws ih =>
    rw [addAll_cons, ih, manyManys_add, List.append_assoc, List.filterMap_cons]
    cases w.manyMany? <;> rfl

/-- Relations are only added. -/
theorem relationNames_addAll (ws : List Wire) (t : Table) :
    (addAll ws t).relationNames.Perm (ws.map identifier ++ t.relationNames) := by
  induction ws generalizing t with
  | nil => exact .refl _
  | cons w ws ih =>
    rw [addAll_cons, List.map_cons, List.cons_append]
    exact (ih (w.add t)).trans ((List.Perm.append_left _ (w.extends_add t).relations).trans
      List.perm_middle)

end Wire

/-! ## Relations on tables -/

/-- Puts a relation on the table with a name. -/
def wire (tables : List Table) (w : String × Wire) : Except SchemaFault (List Table) := do
  claim tables w.1 w.2.identifier
  .ok (modify tables w.1 w.2.add)

/-- The relations that are put on the table with a name. -/
def wiresOn (ws : List (String × Wire)) (name : String) : List Wire :=
  ws.filterMap fun w => if w.1 = name then some w.2 else none

/-- A table with what is put on it. -/
def wired (ws : List (String × Wire)) (t : Table) : Table := Wire.addAll (wiresOn ws t.name) t

theorem wired_cons (w : String × Wire) (ws : List (String × Wire)) (t : Table) :
    wired (w :: ws) t = wired ws (if t.name == w.1 then w.2.add t else t) := by
  unfold wired wiresOn
  by_cases h : w.1 = t.name
  · rw [List.filterMap_cons, if_pos h, if_pos (beq_iff_eq.2 h.symm), (w.2.extends_add t).name]
    rfl
  · rw [List.filterMap_cons, if_neg h, if_neg (by simpa using Ne.symm h)]

theorem map_name_modify {tables : List Table} {name : String} {w : Wire} :
    (modify tables name w.add).map (·.name) = tables.map (·.name) := by
  rw [modify, List.map_map]
  refine List.map_congr_left fun t _ => ?_
  rw [Function.comp_apply]
  split
  · exact (w.extends_add t).name
  · rfl

/-- A name is free unless the table of that name has it. -/
theorem claim_eq_ok_iff {tables : List Table} (hn : (tables.map (·.name)).Nodup)
    {name identifier : String} : claim tables name identifier = .ok () ↔
      ∀ t ∈ tables, t.name = name → identifier ∉ t.relationNames := by
  unfold claim
  cases h : find? tables name with
  | none =>
    refine iff_of_true rfl fun t ht hname => ?_
    exact absurd (beq_iff_eq.2 hname) (List.find?_eq_none.1 h t ht)
  | some u =>
    obtain ⟨hu, hname⟩ := find?_eq_some h
    have hall : (∀ t ∈ tables, t.name = name → identifier ∉ t.relationNames) ↔
        identifier ∉ u.relationNames := by
      refine ⟨fun hall => hall u hu hname, fun hfree t ht htn => ?_⟩
      rwa [List.inj_on_of_nodup_map hn ht hu (htn.trans hname.symm)]
    rw [hall, Table.mem_relationNames]
    cases hu : u.hasRelation identifier <;> simp [hu]

theorem wire_eq_ok_iff {tables tables' : List Table} (hn : (tables.map (·.name)).Nodup)
    {w : String × Wire} : wire tables w = .ok tables' ↔
      (∀ t ∈ tables, t.name = w.1 → w.2.identifier ∉ t.relationNames) ∧
        tables' = modify tables w.1 w.2.add := by
  rw [wire, bind_eq_ok_iff, ← claim_eq_ok_iff hn]
  constructor
  · rintro ⟨⟨⟩, hclaim, h⟩
    cases h
    exact ⟨hclaim, rfl⟩
  · rintro ⟨hclaim, rfl⟩
    exact ⟨(), hclaim, rfl⟩

/-- **Relations on tables.** Relations are put on tables one after the other if in the end no table
has two of one name. -/
theorem foldlM_wire_eq_ok_iff : ∀ {ws : List (String × Wire)} {tables tables' : List Table},
    (tables.map (·.name)).Nodup → (∀ t ∈ tables, t.relationNames.Nodup) →
      (ws.foldlM wire tables = .ok tables' ↔
        (∀ t ∈ tables, (wired ws t).relationNames.Nodup) ∧ tables' = tables.map (wired ws))
  | [], tables, tables', hn, hr => by
    rw [foldlM_nil_eq_ok_iff, eq_comm]
    have hid : tables.map (wired []) = tables := List.map_id _
    rw [hid]
    exact (and_iff_right hr).symm
  | w :: ws, tables, tables', hn, hr => by
    have hmodify : tables.map (wired (w :: ws)) = (modify tables w.1 w.2.add).map (wired ws) := by
      rw [modify, List.map_map]
      exact List.map_congr_left fun t _ => wired_cons w ws t
    rw [foldlM_cons_eq_ok_iff, hmodify]
    simp only [wire_eq_ok_iff hn, wired_cons]
    have hn' : ((modify tables w.1 w.2.add).map (·.name)).Nodup := map_name_modify.symm ▸ hn
    have hstep : ∀ t ∈ tables, t.name = w.1 → (w.2.identifier ∉ t.relationNames ↔
        (w.2.add t).relationNames.Nodup) := by
      intro t ht _
      rw [(w.2.extends_add t).relations.nodup_iff, List.nodup_cons]
      exact (and_iff_left (hr t ht)).symm
    constructor
    · rintro ⟨tables₁, ⟨hfree, rfl⟩, h⟩
      have hr' : ∀ t ∈ modify tables w.1 w.2.add, t.relationNames.Nodup := by
        refine List.forall_mem_map.2 fun t ht => ?_
        split
        · rename_i hname
          exact (hstep t ht (beq_iff_eq.1 hname)).1 (hfree t ht (beq_iff_eq.1 hname))
        · exact hr t ht
      obtain ⟨hall, rfl⟩ := (foldlM_wire_eq_ok_iff hn' hr').1 h
      exact ⟨fun t ht => hall _ (List.mem_map_of_mem ht), rfl⟩
    · rintro ⟨hall, rfl⟩
      have hall' : ∀ t ∈ modify tables w.1 w.2.add, (wired ws t).relationNames.Nodup :=
        List.forall_mem_map.2 hall
      have hr' : ∀ t ∈ modify tables w.1 w.2.add, t.relationNames.Nodup := by
        intro t ht
        have hnodup := (Wire.relationNames_addAll (wiresOn ws t.name) t).nodup_iff.1 (hall' t ht)
        exact hnodup.of_append_right
      refine ⟨modify tables w.1 w.2.add, ⟨fun t ht hname => ?_, rfl⟩,
        (foldlM_wire_eq_ok_iff hn' hr').2 ⟨hall', rfl⟩⟩
      refine (hstep t ht hname).2 (hr' _ (List.mem_map.2 ⟨t, ht, ?_⟩))
      rw [if_pos (beq_iff_eq.2 hname)]

/-! ## The second pass -/

/-- Tables as they are declared, apart from their relations. -/
def Declared (d : SchemaDecl) (tables : List Table) : Prop :=
  List.Forall₂ (Declares d.database) d.tables tables

/-- What is put on tables for a declared reference. -/
def wiresOfReference (d : SchemaDecl) (p : TableDecl × ReferenceDecl) : List (String × Wire) :=
  ((d.referenceOf? p.1 p.2).map fun m => (p.1.name, Wire.reference m)).toList
    ++ ((SchemaDecl.reverseOf? p.1 p.2).map fun m => (p.2.targetTable, Wire.reverse m)).toList

/-- What is put on tables for an association. -/
def wiresOfAssociation (a : AssociationDecl) : List (String × Wire) :=
  [(a.leftTable, .manyMany ⟨a.leftIdentifier, a.table, a.leftColumn, a.rightColumn, a.rightTable⟩),
    (a.rightTable,
      .manyMany ⟨a.rightIdentifier, a.table, a.rightColumn, a.leftColumn, a.leftTable⟩)]

/-- What is put on tables for a declaration. -/
def wiresOf (d : SchemaDecl) : List (String × Wire) :=
  d.references.flatMap (wiresOfReference d) ++ d.associations.flatMap wiresOfAssociation

theorem column?_declared {database : String} {t : TableDecl} {u : Table}
    (h : Declares database t u) (key : String) : u.column? key = (t.column? key).map columnOf := by
  have hname : u.named? key = (t.columns.find? (·.name == key)).map columnOf := by
    rw [Table.named?, h.columns, List.find?_map]
    rfl
  have hfield : u.columns.find? (·.identifier == key) =
      (t.columns.find? (·.field == key)).map columnOf := by
    rw [h.columns, List.find?_map]
    rfl
  rw [Table.column?, TableDecl.column?, hname, hfield]
  cases t.columns.find? (·.name == key) <;> rfl

/-- The key of a table is the column that is marked. -/
theorem key?_declared {database : String} {t : TableDecl} {u : Table}
    (h : Declares database t u) (hc : t.Consistent) : t.key?.map columnOf = some u.primaryKey := by
  obtain ⟨k, hk⟩ := List.length_eq_one_iff.1 hc.key
  have hmem := u.primaryKey_mem
  rw [h.columns] at hmem
  obtain ⟨c, hcm, hcu⟩ := List.mem_map.1 hmem
  have hmarked : c.primaryKey = true := by
    have := u.primaryKey_primary
    rwa [← hcu] at this
  have hck : c = k := by
    have : c ∈ t.columns.filter (·.primaryKey) := List.mem_filter.2 ⟨hcm, hmarked⟩
    rwa [hk, List.mem_singleton] at this
  rw [TableDecl.key?, ← List.head?_filter, hk, List.head?_cons, Option.map_some, ← hck, hcu]

section
variable {d : SchemaDecl} {tables : List Table} (h : Declared d tables)
include h

theorem map_name_declared : tables.map (·.name) = d.tables.map (·.name) := by
  unfold Declared at h
  generalize d.tables = decls at h ⊢
  induction h with
  | nil => rfl
  | cons hu _ ih => rw [List.map_cons, List.map_cons, hu.name, ih]

/-- A name leads to a table and to its declaration, or to neither. -/
theorem find?_declared (name : String) :
    Option.Rel (Declares d.database) (d.table? name) (find? tables name) := by
  unfold Declared at h
  unfold SchemaDecl.table? find?
  generalize d.tables = decls at h ⊢
  induction h with
  | nil => exact .none
  | cons hu _ ih =>
    rw [List.find?_cons, List.find?_cons, hu.name]
    split
    · exact .some hu
    · exact ih

theorem declared_wire {tables' : List Table} {w : String × Wire}
    (hw : wire tables w = .ok tables') : Declared d tables' := by
  obtain ⟨⟨⟩, -, hw⟩ := bind_eq_ok_iff.1 hw
  cases hw
  refine List.forall₂_map_right_iff.2 (List.Forall₂.imp (fun t u hu => ?_) h)
  split
  · exact Wire.declares_addAll hu [w.2]
  · exact hu

/-- Between tables that exist, a reference is put on its own table, and what it derives on the
other. -/
theorem wireReference_eq_ok_iff (hn : (d.tables.map (·.name)).Nodup)
    (hc : ∀ t ∈ d.tables, t.Consistent) {t : TableDecl} (ht : t ∈ d.tables) {r : ReferenceDecl}
    {tables' : List Table} : wireReference t.name tables r = .ok tables' ↔
      d.Resolves t r ∧ (wiresOfReference d (t, r)).foldlM wire tables = .ok tables' := by
  have howner := find?_declared h t.name
  rw [SchemaDecl.table?_of_mem hn ht] at howner
  obtain ⟨owner, hfind, hdecl⟩ : ∃ owner, find? tables t.name = some owner ∧
      Declares d.database t owner := by
    cases hf : find? tables t.name with
    | none => rw [hf] at howner; cases howner
    | some owner => rw [hf] at howner; cases howner with | some hu => exact ⟨owner, rfl, hu⟩
  have htarget := find?_declared h r.targetTable
  unfold wireReference SchemaDecl.Resolves wiresOfReference
  rw [require, hfind, Option.bind_some, column?_declared hdecl]
  generalize hdt : d.table? r.targetTable = dt at htarget ⊢
  generalize find? tables r.targetTable = ft at htarget ⊢
  cases htarget with
  | none => exact iff_of_false nofun fun h => nomatch h.1.1
  | some hu =>
    rename_i target u
    cases hfk : t.column? r.column with
    | none => exact iff_of_false nofun fun h => nomatch h.1.2
    | some fk =>
      obtain ⟨key, hk, hku⟩ := Option.map_eq_some_iff.1
        (key?_declared hu (hc target (List.mem_of_find?_eq_some hdt)))
      have href : d.referenceOf? t r =
          some ⟨r.identifier, fk.name, r.targetTable, u.primaryKey.name⟩ := by
        simp [SchemaDecl.referenceOf?, hfk, hdt, hk, ← hku, columnOf]
      rw [and_iff_right ⟨rfl, rfl⟩, href]
      cases hr : r.reverseIdentifier with
      | none =>
        have hrev : SchemaDecl.reverseOf? t r = none := by simp [SchemaDecl.reverseOf?, hr]
        simp only [hrev, Option.map_some, Option.map_none, Option.toList_some, Option.toList_none,
          List.append_nil, List.foldlM_cons, List.foldlM_nil, bind_pure]
        exact Iff.rfl
      | some reverse =>
        have hrev : SchemaDecl.reverseOf? t r =
            some ⟨reverse, t.name, fk.name, fk.unique || fk.primaryKey⟩ := by
          simp [SchemaDecl.reverseOf?, hr, hfk]
        simp only [hrev, Option.map_some, Option.toList_some, List.singleton_append,
          List.foldlM_cons, List.foldlM_nil, bind_pure, wire, bind_assoc]
        exact Iff.rfl

/-- The table of a name is found if one is declared. -/
theorem exists_require_iff {name : String} :
    (∃ u, require tables name = .ok u) ↔ (d.table? name).isSome = true := by
  have hfind := find?_declared h name
  unfold require
  generalize d.table? name = t? at hfind ⊢
  generalize find? tables name = u? at hfind ⊢
  cases hfind with
  | none => exact iff_of_false nofun nofun
  | some _ => exact iff_of_true ⟨_, rfl⟩ rfl

/-- Between tables that exist, an association is put on both. -/
theorem wireAssociation_eq_ok_iff {a : AssociationDecl} {tables' : List Table} :
    wireAssociation tables a = .ok tables' ↔
      ((d.table? a.leftTable).isSome = true ∧ (d.table? a.rightTable).isSome = true) ∧
        (wiresOfAssociation a).foldlM wire tables = .ok tables' := by
  have hwires : (wiresOfAssociation a).foldlM wire tables = .ok tables' ↔
      (do
        claim tables a.leftTable a.leftIdentifier
        let tables := modify tables a.leftTable
          (addManyMany ⟨a.leftIdentifier, a.table, a.leftColumn, a.rightColumn, a.rightTable⟩)
        claim tables a.rightTable a.rightIdentifier
        .ok (modify tables a.rightTable
          (addManyMany ⟨a.rightIdentifier, a.table, a.rightColumn, a.leftColumn, a.leftTable⟩))) =
        Except.ok tables' := by
    simp only [wiresOfAssociation, List.foldlM_cons, List.foldlM_nil, bind_pure, wire, bind_assoc]
    exact Iff.rfl
  rw [hwires, ← exists_require_iff h, ← exists_require_iff h, wireAssociation]
  simp only [bind_eq_ok_iff (x := require _ _)]
  constructor
  · rintro ⟨u, hu, v, hv, hrest⟩
    exact ⟨⟨⟨u, hu⟩, ⟨v, hv⟩⟩, hrest⟩
  · rintro ⟨⟨⟨u, hu⟩, ⟨v, hv⟩⟩, hrest⟩
    exact ⟨u, hu, v, hv, hrest⟩

/-- The second pass puts the relations of all references, then those of all associations, on
tables. -/
theorem wireAll_eq_ok_iff (hn : (d.tables.map (·.name)).Nodup)
    (hc : ∀ t ∈ d.tables, t.Consistent) {tables' : List Table} :
    (∃ wired, d.tables.foldlM wireTable tables = .ok wired ∧
        d.associations.foldlM wireAssociation wired = .ok tables') ↔
      (∀ t ∈ d.tables, ∀ r ∈ t.references, d.Resolves t r) ∧
        (∀ a ∈ d.associations,
          (d.table? a.leftTable).isSome = true ∧ (d.table? a.rightTable).isSome = true) ∧
        (wiresOf d).foldlM wire tables = .ok tables' := by
  have hkeep : ∀ (w : String × Wire) (b b' : List Table), Declared d b → wire b w = .ok b' →
      Declared d b' := fun _ _ _ hb hw => declared_wire hb hw
  have hreferences : ∀ {b}, d.tables.foldlM wireTable tables = .ok b ↔
      (∀ t ∈ d.tables, ∀ r ∈ t.references, d.Resolves t r) ∧
        (d.references.flatMap (wiresOfReference d)).foldlM wire tables = .ok b := by
    intro b
    have hflat : d.references.flatMap (wiresOfReference d) =
        d.tables.flatMap fun t => t.references.flatMap fun r => wiresOfReference d (t, r) := by
      rw [SchemaDecl.references, List.flatMap_assoc]
      simp only [List.flatMap_map]
    rw [hflat]
    refine foldlM_flatMap_eq_ok_iff hkeep (fun t ht b c hb => ?_) h
    refine foldlM_flatMap_eq_ok_iff hkeep (fun r _ b c hb => ?_) hb
    exact wireReference_eq_ok_iff hb hn hc ht
  rw [wiresOf, List.foldlM_append, bind_eq_ok_iff]
  have hassociations : ∀ {b : List Table}, Declared d b →
      (d.associations.foldlM wireAssociation b = .ok tables' ↔ (∀ a ∈ d.associations,
          (d.table? a.leftTable).isSome = true ∧ (d.table? a.rightTable).isSome = true) ∧
        (d.associations.flatMap wiresOfAssociation).foldlM wire b = .ok tables') := by
    intro b hb
    refine foldlM_flatMap_eq_ok_iff hkeep (fun a _ b c hb => ?_) hb
    exact wireAssociation_eq_ok_iff hb
  constructor
  · rintro ⟨b, hb, htables⟩
    obtain ⟨hr, hb⟩ := hreferences.1 hb
    obtain ⟨ha, htables⟩ := (hassociations (foldlM_keeps (fun w _ => hkeep w) h hb)).1 htables
    exact ⟨hr, ha, b, hb, htables⟩
  · rintro ⟨hr, ha, b, hb, htables⟩
    exact ⟨b, hreferences.2 ⟨hr, hb⟩,
      (hassociations (foldlM_keeps (fun w _ => hkeep w) h hb)).2 ⟨ha, htables⟩⟩

end

end Schema

end RecordGraph
