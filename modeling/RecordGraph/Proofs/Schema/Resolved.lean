import RecordGraph.Proofs.Node.Over
import RecordGraph.Proofs.Node.SameShape
import RecordGraph.Proofs.Schema.Wired

/-!
# Resolved declarations

* `Schema.wires_wired`: what the second pass puts on a table are the relations that the
  declaration gives it.
* `Schema.Wires.relationNames_eq`: under the names that the declaration gives them.
* `Schema.ofDeclaration_iff`: the consistent declarations are resolved, with exactly their
  relations.
-/
namespace RecordGraph

/-! ## Lists -/

section
variable {α β γ : Type}

/-- Of things with different keys, the key picks one. -/
theorem flatMap_ite_key [DecidableEq γ] {key : α → γ} {as : List α} (hn : (as.map key).Nodup)
    {a : α} (ha : a ∈ as) (f : α → List β) :
    as.flatMap (fun x => if key x = key a then f x else []) = f a := by
  induction as with
  | nil => cases ha
  | cons x as ih =>
    rw [List.map_cons, List.nodup_cons] at hn
    rw [List.flatMap_cons]
    rcases List.mem_cons.1 ha with rfl | ha
    · have hrest : as.flatMap (fun x => if key x = key a then f x else []) = [] := by
        refine List.flatMap_eq_nil_iff.2 fun x hx => if_neg fun h => hn.1 ?_
        exact h ▸ List.mem_map_of_mem hx
      rw [if_pos rfl, hrest, List.append_nil]
    · have hx : key x ≠ key a := fun h => hn.1 (h ▸ List.mem_map_of_mem ha)
      rw [if_neg hx, List.nil_append, ih hn.2 ha]

theorem map_eq_map_some_filterMap {f : α → Option β} {as : List α}
    (h : ∀ a ∈ as, (f a).isSome = true) : as.map f = (as.filterMap f).map some := by
  induction as with
  | nil => rfl
  | cons a as ih =>
    obtain ⟨b, hb⟩ := Option.isSome_iff_exists.1 (h a List.mem_cons_self)
    rw [List.map_cons, List.filterMap_cons, hb, List.map_cons,
      ih fun x hx => h x (List.mem_cons_of_mem _ hx)]

section
variable {R : α → β → Prop} {as : List α} {bs : List β}

theorem exists_of_mem_left (h : List.Forall₂ R as bs) {a : α} (ha : a ∈ as) :
    ∃ b ∈ bs, R a b := by
  induction h with
  | nil => cases ha
  | cons hab _ ih =>
    rcases List.mem_cons.1 ha with rfl | ha
    · exact ⟨_, List.mem_cons_self, hab⟩
    · obtain ⟨b, hb, hab⟩ := ih ha
      exact ⟨b, List.mem_cons_of_mem _ hb, hab⟩

theorem exists_of_mem_right (h : List.Forall₂ R as bs) {b : β} (hb : b ∈ bs) :
    ∃ a ∈ as, R a b := exists_of_mem_left (List.Forall₂.flip h) hb

theorem exists_forall₂ (h : ∀ a ∈ as, ∃ b, R a b) : ∃ bs, List.Forall₂ R as bs := by
  induction as with
  | nil => exact ⟨[], .nil⟩
  | cons a as ih =>
    obtain ⟨b, hab⟩ := h a List.mem_cons_self
    obtain ⟨bs, hbs⟩ := ih fun x hx => h x (List.mem_cons_of_mem _ hx)
    exact ⟨b :: bs, .cons hab hbs⟩

end

/-- What results have in common with what they come from. -/
theorem map_eq_of_map_some {f : α → Option β} {g : β → γ} {k : α → γ}
    (h : ∀ a b, f a = some b → g b = k a) :
    ∀ {as : List α} {bs : List β}, as.map f = bs.map some → bs.map g = as.map k
  | [], bs, hmap => by
    cases bs with
    | nil => rfl
    | cons b bs => cases hmap
  | a :: as, bs, hmap => by
    cases bs with
    | nil => cases hmap
    | cons b bs =>
      obtain ⟨hb, hrest⟩ := List.cons.inj hmap
      rw [List.map_cons, List.map_cons, h a b hb, map_eq_of_map_some h hrest]

end

namespace Schema

/-! ## What is put on a table -/

theorem wiresOn_nil (name : String) : wiresOn [] name = [] := rfl

theorem wiresOn_append (ws ws' : List (String × Wire)) (name : String) :
    wiresOn (ws ++ ws') name = wiresOn ws name ++ wiresOn ws' name := List.filterMap_append

theorem wiresOn_flatMap {α : Type} (f : α → List (String × Wire)) (as : List α) (name : String) :
    wiresOn (as.flatMap f) name = as.flatMap fun a => wiresOn (f a) name := by
  rw [wiresOn, List.filterMap_flatMap]
  rfl

theorem filterMap_wiresOn_cons {α : Type} (w : String × Wire) (ws : List (String × Wire))
    (name : String) (f : Wire → Option α) : (wiresOn (w :: ws) name).filterMap f =
      (if w.1 = name then (f w.2).toList else []) ++ (wiresOn ws name).filterMap f := by
  rw [wiresOn, List.filterMap_cons]
  split
  · rename_i h
    rw [if_neg fun hn => by simp [hn] at h]
    rfl
  · rename_i w' h
    obtain ⟨hn, hw⟩ := Option.ite_none_right_eq_some.1 h
    rw [if_pos hn, List.filterMap_cons, ← Option.some.inj hw, wiresOn]
    cases f w.2 <;> rfl

/-- What is put on a table is put there for references and for associations. -/
theorem filterMap_wiresOf {α : Type} (d : SchemaDecl) (name : String) (f : Wire → Option α) :
    (wiresOn (wiresOf d) name).filterMap f =
      (d.references.flatMap fun p => (wiresOn (wiresOfReference d p) name).filterMap f)
        ++ d.associations.flatMap fun a => (wiresOn (wiresOfAssociation a) name).filterMap f := by
  rw [wiresOf, wiresOn_append, wiresOn_flatMap, wiresOn_flatMap, List.filterMap_append,
    List.filterMap_flatMap, List.filterMap_flatMap]

/-- What a declared reference puts on a table. -/
theorem filterMap_wiresOfReference {α : Type} (d : SchemaDecl) (p : TableDecl × ReferenceDecl)
    (name : String) (f : Wire → Option α) : (wiresOn (wiresOfReference d p) name).filterMap f =
      (if p.1.name = name then
        ((d.referenceOf? p.1 p.2).bind fun m => f (.reference m)).toList else [])
      ++ (if p.2.targetTable = name then
        ((SchemaDecl.reverseOf? p.1 p.2).bind fun m => f (.reverse m)).toList else []) := by
  rw [wiresOfReference]
  cases d.referenceOf? p.1 p.2 <;> cases SchemaDecl.reverseOf? p.1 p.2 <;>
    simp [filterMap_wiresOn_cons, wiresOn_nil]

/-- What an association puts on a table. -/
theorem filterMap_wiresOfAssociation {α : Type} (a : AssociationDecl) (name : String)
    (f : Wire → Option α) : (wiresOn (wiresOfAssociation a) name).filterMap f =
      (if a.leftTable = name then (f (.manyMany
        ⟨a.leftIdentifier, a.table, a.leftColumn, a.rightColumn, a.rightTable⟩)).toList else []) ++
      (if a.rightTable = name then (f (.manyMany
        ⟨a.rightIdentifier, a.table, a.rightColumn, a.leftColumn, a.leftTable⟩)).toList
        else []) := by
  rw [wiresOfAssociation, filterMap_wiresOn_cons, filterMap_wiresOn_cons, wiresOn_nil,
    List.filterMap_nil, List.append_nil]

section
variable {d : SchemaDecl} {t : TableDecl}

theorem references_wiresOf (hn : (d.tables.map (·.name)).Nodup) (ht : t ∈ d.tables) :
    (wiresOn (wiresOf d) t.name).filterMap Wire.reference? =
      t.references.filterMap (d.referenceOf? t) := by
  have hassociations : d.associations.flatMap (fun a =>
      (wiresOn (wiresOfAssociation a) t.name).filterMap Wire.reference?) = [] := by
    simp [filterMap_wiresOfAssociation, Wire.reference?]
  have hreferences : (d.references.flatMap fun p =>
      (wiresOn (wiresOfReference d p) t.name).filterMap Wire.reference?) =
        d.tables.flatMap fun u => if u.name = t.name then
          u.references.filterMap (d.referenceOf? u) else [] := by
    rw [SchemaDecl.references, List.flatMap_assoc]
    refine List.flatMap_congr fun u _ => ?_
    have hone : ∀ r ∈ u.references,
        (wiresOn (wiresOfReference d (u, r)) t.name).filterMap Wire.reference? =
          if u.name = t.name then (d.referenceOf? u r).toList else [] := fun r _ => by
      simp [filterMap_wiresOfReference, Wire.reference?]
    rw [List.flatMap_map, List.flatMap_congr hone]
    split
    · exact (List.filterMap_eq_flatMap_toList _ _).symm
    · exact List.flatMap_eq_nil_iff.2 fun _ _ => rfl
  rw [filterMap_wiresOf, hassociations, List.append_nil, hreferences, flatMap_ite_key hn ht]

theorem reverses_wiresOf : (wiresOn (wiresOf d) t.name).filterMap Wire.reverse? =
    (d.reversing t.name).filterMap fun p => SchemaDecl.reverseOf? p.1 p.2 := by
  have hassociations : d.associations.flatMap (fun a =>
      (wiresOn (wiresOfAssociation a) t.name).filterMap Wire.reverse?) = [] := by
    simp [filterMap_wiresOfAssociation, Wire.reverse?]
  rw [filterMap_wiresOf, hassociations, List.append_nil, SchemaDecl.reversing,
    List.filterMap_filter, List.filterMap_eq_flatMap_toList]
  congr 1
  funext p
  cases hr : p.2.reverseIdentifier <;> by_cases ht : p.2.targetTable = t.name <;>
    simp [filterMap_wiresOfReference, Wire.reverse?, SchemaDecl.reverseOf?, hr, ht]

theorem manyManys_wiresOf : (wiresOn (wiresOf d) t.name).filterMap Wire.manyMany? =
    d.manyManysOf t.name := by
  simp [filterMap_wiresOf, filterMap_wiresOfReference, filterMap_wiresOfAssociation,
    Wire.manyMany?, SchemaDecl.manyManysOf]

theorem isSome_referenceOf? (hc : ∀ t ∈ d.tables, t.Consistent) {r : ReferenceDecl}
    (h : d.Resolves t r) : (d.referenceOf? t r).isSome = true := by
  obtain ⟨u, hu⟩ := Option.isSome_iff_exists.1 h.1
  obtain ⟨fk, hfk⟩ := Option.isSome_iff_exists.1 h.2
  have hkey : u.key?.isSome = true := by
    have hpos : 0 < (u.columns.filter (·.primaryKey)).length :=
      (hc u (List.mem_of_find?_eq_some hu)).key ▸ Nat.one_pos
    obtain ⟨k, hk⟩ := List.exists_mem_of_length_pos hpos
    exact List.find?_isSome.2 ⟨k, List.mem_filter.1 hk⟩
  obtain ⟨k, hk⟩ := Option.isSome_iff_exists.1 hkey
  simp [SchemaDecl.referenceOf?, hfk, hu, hk]

theorem isSome_reverseOf? {p : TableDecl × ReferenceDecl} (hp : p ∈ d.reversing t.name)
    (h : d.Resolves p.1 p.2) : (SchemaDecl.reverseOf? p.1 p.2).isSome = true := by
  obtain ⟨fk, hfk⟩ := Option.isSome_iff_exists.1 h.2
  have hreverse := (Bool.and_eq_true_iff.1 (List.mem_filter.1 hp).2).2
  obtain ⟨identifier, hi⟩ := Option.isSome_iff_exists.1 hreverse
  simp [SchemaDecl.reverseOf?, hfk, hi]

/-- **Wiring.** What the second pass puts on a table are the relations that the declaration gives
it. -/
theorem wires_wired {u : Table} (hn : (d.tables.map (·.name)).Nodup)
    (hc : ∀ t ∈ d.tables, t.Consistent)
    (hr : ∀ t ∈ d.tables, ∀ r ∈ t.references, d.Resolves t r) (ht : t ∈ d.tables)
    (h : Declares d.database t u) (hreferences : u.references = []) (hreverses : u.reverses = [])
    (hmanyManys : u.manyManys = []) : Wires d t (wired (wiresOf d) u) := by
  have hdeclares := Wire.declares_addAll h (wiresOn (wiresOf d) u.name)
  refine ⟨hdeclares, key?_declared hdeclares (hc t ht), ?_, ?_, ?_⟩
  · rw [wired, Wire.references_addAll, hreferences, List.nil_append, h.name,
      references_wiresOf hn ht]
    exact map_eq_map_some_filterMap fun r hm => isSome_referenceOf? hc (hr t ht r hm)
  · rw [wired, Wire.reverses_addAll, hreverses, List.nil_append, h.name, reverses_wiresOf]
    refine map_eq_map_some_filterMap fun p hp => isSome_reverseOf? hp ?_
    obtain ⟨t', ht', hp⟩ := List.mem_flatMap.1 (List.mem_filter.1 hp).1
    obtain ⟨r, hm, rfl⟩ := List.mem_map.1 hp
    exact hr t' ht' r hm
  · rw [wired, Wire.manyManys_addAll, hmanyManys, List.nil_append, h.name, manyManys_wiresOf]

/-- The relations of a table have the names that the declaration gives them. -/
theorem Wires.relationNames_eq {u : Table} (h : Wires d t u) :
    u.relationNames = d.relationNames t := by
  have href : ∀ r m, d.referenceOf? t r = some m → m.identifier = r.identifier := by
    intro r m hm
    simp only [SchemaDecl.referenceOf?, Option.bind_eq_some_iff, Option.bind_eq_bind] at hm
    obtain ⟨fk, -, key, -, hm⟩ := hm
    cases hm
    rfl
  have hrev : ∀ (p : TableDecl × ReferenceDecl) m, SchemaDecl.reverseOf? p.1 p.2 = some m →
      some m.identifier = p.2.reverseIdentifier := by
    intro p m hm
    simp only [SchemaDecl.reverseOf?, Option.bind_eq_some_iff, Option.bind_eq_bind] at hm
    obtain ⟨identifier, hi, fk, -, hm⟩ := hm
    cases hm
    exact hi.symm
  have hreverses : u.reverses.map (·.identifier) =
      (d.references.filter (·.2.targetTable == t.name)).filterMap (·.2.reverseIdentifier) := by
    have hsome := map_eq_of_map_some hrev h.reverses
    calc u.reverses.map (·.identifier)
        = (u.reverses.map fun m => some m.identifier).filterMap id := by
          rw [List.filterMap_map, ← List.filterMap_eq_map]
          rfl
      _ = (d.reversing t.name).filterMap (·.2.reverseIdentifier) := by
          rw [hsome, List.filterMap_map]
          rfl
      _ = (d.references.filter (·.2.targetTable == t.name)).filterMap (·.2.reverseIdentifier) := by
          rw [SchemaDecl.reversing, List.filterMap_filter, List.filterMap_filter]
          refine List.filterMap_congr fun p _ => ?_
          cases p.2.reverseIdentifier <;> simp
  have hmanyManys : u.manyManys.map (·.identifier) = d.associations.flatMap fun a =>
      (if a.leftTable = t.name then [a.leftIdentifier] else [])
        ++ (if a.rightTable = t.name then [a.rightIdentifier] else []) := by
    rw [h.manyManys, SchemaDecl.manyManysOf, List.map_flatMap]
    refine List.flatMap_congr fun a _ => ?_
    rw [List.map_append, apply_ite (List.map _), apply_ite (List.map _)]
    rfl
  rw [Table.relationNames, SchemaDecl.relationNames, map_eq_of_map_some href h.references,
    hreverses, hmanyManys]

end

end Schema

/-- A schema has the tables of a declaration, with exactly their relations. -/
structure SchemaDecl.Describes (d : SchemaDecl) (s : Schema) : Prop where
  database : s.database = d.database
  tables : List.Forall₂ (Schema.Wires d) d.tables s.tables
  associations : s.associations = d.associations.map Schema.associationOf

namespace Schema

/-! ## Both passes -/

/-- The tables that the first pass comes to, and what the second pass makes of them. -/
theorem ofDeclaration_eq_ok_iff {d : SchemaDecl} {s : Schema} :
    ofDeclaration d = .ok s ↔ ∃ us, (d.tables.map (·.name)).Nodup ∧
      List.Forall₂ (fun t u => tableOf d.database t = .ok u) d.tables us ∧
      (∀ t ∈ d.tables, ∀ r ∈ t.references, d.Resolves t r) ∧
      (∀ a ∈ d.associations,
        (d.table? a.leftTable).isSome = true ∧ (d.table? a.rightTable).isSome = true) ∧
      (∀ u ∈ us, (wired (wiresOf d) u).relationNames.Nodup) ∧
      s = ⟨d.database, us.map (wired (wiresOf d)), d.associations.map associationOf⟩ := by
  have hsecond : ∀ us, List.Forall₂ (fun t u => tableOf d.database t = .ok u) d.tables us →
      (d.tables.map (·.name)).Nodup → ∀ tables,
        ((∃ wired, d.tables.foldlM wireTable us = .ok wired ∧
            d.associations.foldlM wireAssociation wired = .ok tables) ↔
          (∀ t ∈ d.tables, ∀ r ∈ t.references, d.Resolves t r) ∧
          (∀ a ∈ d.associations,
            (d.table? a.leftTable).isSome = true ∧ (d.table? a.rightTable).isSome = true) ∧
          (∀ u ∈ us, (wired (wiresOf d) u).relationNames.Nodup) ∧
          tables = us.map (wired (wiresOf d))) := by
    intro us hus hn tables
    have hdeclared : Declared d us := hus.imp fun t u hu => (tableOf_eq_ok hu).2.1
    have hc : ∀ t ∈ d.tables, t.Consistent := fun t ht =>
      let ⟨_, _, hu⟩ := exists_of_mem_left hus ht
      (tableOf_eq_ok hu).1
    have hbare : ∀ u ∈ us, u.relationNames.Nodup := by
      intro u hu
      obtain ⟨t, -, htu⟩ := exists_of_mem_right hus hu
      obtain ⟨-, -, hr, hv, hm⟩ := tableOf_eq_ok htu
      simp [Table.relationNames, hr, hv, hm]
    rw [wireAll_eq_ok_iff hdeclared hn hc,
      foldlM_wire_eq_ok_iff (map_name_declared hdeclared ▸ hn) hbare]
  rw [ofDeclaration, mapError_eq_ok_iff, resolve, bind_eq_ok_iff]
  constructor
  · rintro ⟨us, hfirst, h⟩
    obtain ⟨-, hn, us, hus, rfl⟩ := tablesOf_eq_ok_iff.1 hfirst
    obtain ⟨tables, htables, h⟩ := bind_eq_ok_iff.1 h
    obtain ⟨tables', htables', h⟩ := bind_eq_ok_iff.1 h
    cases h
    obtain ⟨hr, ha, hnodup, rfl⟩ := (hsecond us hus hn tables').1 ⟨tables, htables, htables'⟩
    exact ⟨us, hn, hus, hr, ha, hnodup, rfl⟩
  · rintro ⟨us, hn, hus, hr, ha, hnodup, rfl⟩
    obtain ⟨tables, htables, htables'⟩ := (hsecond us hus hn _).2 ⟨hr, ha, hnodup, rfl⟩
    refine ⟨us, tablesOf_eq_ok_iff.2 ⟨by simp, hn, us, hus, (List.nil_append us).symm⟩, ?_⟩
    exact bind_eq_ok_iff.2 ⟨tables, htables, bind_eq_ok_iff.2 ⟨_, htables', rfl⟩⟩

/-- **Resolution.** The declarations that are resolved are the consistent ones, and they are
resolved to their tables with exactly their relations. -/
theorem ofDeclaration_iff (d : SchemaDecl) :
    ((∃ s, ofDeclaration d = .ok s) ↔ d.Consistent) ∧
      ∀ s, ofDeclaration d = .ok s → d.Describes s := by
  have hwires : ∀ us, (d.tables.map (·.name)).Nodup →
      List.Forall₂ (fun t u => tableOf d.database t = .ok u) d.tables us →
      (∀ t ∈ d.tables, ∀ r ∈ t.references, d.Resolves t r) →
      List.Forall₂ (fun t u => Wires d t (wired (wiresOf d) u)) d.tables us := by
    intro us hn hus hr
    have hc : ∀ t ∈ d.tables, t.Consistent := fun t ht =>
      let ⟨_, _, hu⟩ := exists_of_mem_left hus ht
      (tableOf_eq_ok hu).1
    refine (forall₂_and_mem_zip hus).imp fun t u ⟨hu, hmem⟩ => ?_
    obtain ⟨-, hdeclares, hrefs, hrevs, hmms⟩ := tableOf_eq_ok hu
    exact wires_wired hn hc hr (List.of_mem_zip hmem).1 hdeclares hrefs hrevs hmms
  refine ⟨⟨?_, fun h => ?_⟩, fun s hs => ?_⟩
  · rintro ⟨s, hs⟩
    obtain ⟨us, hn, hus, hr, ha, hnodup, -⟩ := ofDeclaration_eq_ok_iff.1 hs
    refine ⟨hn, fun t ht => ?_, hr, ha, fun t ht => ?_⟩
    · obtain ⟨u, -, hu⟩ := exists_of_mem_left hus ht
      exact (tableOf_eq_ok hu).1
    · obtain ⟨u, hu, hw⟩ := exists_of_mem_left (hwires us hn hus hr) ht
      exact hw.relationNames_eq ▸ hnodup u hu
  · obtain ⟨us, hus⟩ := exists_forall₂ (R := fun t u => tableOf d.database t = .ok u)
      fun t ht => exists_tableOf (h.tables t ht)
    refine ⟨_, ofDeclaration_eq_ok_iff.2
      ⟨us, h.names, hus, h.references, h.associations, fun u hu => ?_, rfl⟩⟩
    obtain ⟨t, ht, hw⟩ := exists_of_mem_right (hwires us h.names hus h.references) hu
    exact hw.relationNames_eq ▸ h.relations t ht
  · obtain ⟨us, hn, hus, hr, -, -, rfl⟩ := ofDeclaration_eq_ok_iff.1 hs
    exact ⟨rfl, List.forall₂_map_right_iff.2 (hwires us hn hus hr), rfl⟩

/-- The library is described by its declaration. -/
theorem library_described : ∃ s, ofDeclaration Library.declaration = .ok s ∧
    Library.declaration.Consistent ∧ Library.declaration.Describes s := by
  obtain ⟨s, q, t, h⟩ := Library.exists_tree
  have hs := (Library.tree_cases h).1
  exact ⟨s, hs, (ofDeclaration_iff Library.declaration).1.1 ⟨s, hs⟩,
    (ofDeclaration_iff Library.declaration).2 s hs⟩

end Schema

end RecordGraph
