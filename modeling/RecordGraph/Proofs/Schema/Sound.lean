import Mathlib.Data.List.Nodup
import RecordGraph.Proofs.Outcome
import RecordGraph.Schema.Basic

/-!
# What a resolved schema guarantees

* `Table.Sound`: names settle the columns and the relations of a table, one column is its key, and
  at most one guards writes.
* `Schema.SoundTables`: names settle the tables, and each of them is sound.
* `Schema.ofDeclaration_sound`: resolving a declaration gives sound tables.
-/
namespace RecordGraph

/-- Columns that a table may have together. -/
def Column.Apart (a b : Column) : Prop := a.name ≠ b.name ∧ a.identifier ≠ b.identifier

namespace Table

/-- The names of the relations that start from a table. -/
def relationNames (t : Table) : List String :=
  t.references.map (·.identifier) ++ t.reverses.map (·.identifier) ++ t.manyManys.map (·.identifier)

/-- A table in which names settle what they name. -/
structure Sound (t : Table) : Prop where
  columns : t.columns.Pairwise Column.Apart
  key : ∀ c ∈ t.columns, c.primaryKey = true → c = t.primaryKey
  locks : (t.columns.filter (·.isLock)).length ≤ 1
  lock_integer : ∀ c ∈ t.columns, c.isLock = true → c.receiver.intBits?.isSome = true
  relations : t.relationNames.Nodup

theorem mem_relationNames {t : Table} {identifier : String} :
    identifier ∈ t.relationNames ↔ t.hasRelation identifier = true := by
  simp [relationNames, hasRelation, reference?, reverse?, manyMany?, or_assoc]

/-- An identifier among different ones settles its entry. -/
theorem find?_identifier {α : Type} {f : α → String} {as : List α} (h : (as.map f).Nodup) {a : α}
    (ha : a ∈ as) : as.find? (f · == f a) = some a := by
  cases hf : as.find? (f · == f a) with
  | none => exact absurd (beq_self_eq_true (f a)) (List.find?_eq_none.1 hf a ha)
  | some b =>
    have hb : f b = f a := by simpa using List.find?_some hf
    exact congrArg some (List.inj_on_of_nodup_map h (List.mem_of_find?_eq_some hf) ha hb)

theorem Sound.names_nodup {t : Table} (h : t.Sound) : (t.columns.map (·.name)).Nodup := by
  rw [List.nodup_iff_pairwise_ne, List.pairwise_map]
  exact h.columns.imp fun h => h.1

/-- A column is settled by its name. -/
theorem Sound.column_eq {t : Table} (h : t.Sound) {a b : Column} (ha : a ∈ t.columns)
    (hb : b ∈ t.columns) (hn : a.name = b.name) : a = b :=
  List.inj_on_of_nodup_map h.names_nodup ha hb hn

/-- A column that guards writes is the one that does. -/
theorem Sound.lockColumn?_eq_some_iff {t : Table} (h : t.Sound) {c : Column} :
    t.lockColumn? = some c ↔ c ∈ t.columns ∧ c.isLock = true := by
  refine ⟨fun hc => ⟨List.mem_of_find?_eq_some hc, List.find?_some hc⟩, fun hc => ?_⟩
  have hmem : c ∈ t.columns.filter (·.isLock) := List.mem_filter.2 hc
  have hlen := h.locks
  rw [lockColumn?, ← List.head?_filter]
  match hl : t.columns.filter (·.isLock) with
  | [] => rw [hl] at hmem; cases hmem
  | [d] => rw [hl] at hmem; rw [hl, List.mem_singleton.1 hmem, List.head?_cons]
  | _ :: _ :: _ => rw [hl, List.length_cons, List.length_cons] at hlen; omega

/-- The columns that identify an object are the key and the version. -/
theorem Sound.identifies_iff {t : Table} (h : t.Sound) {c : Column} (hc : c ∈ t.columns) :
    (c.primaryKey || c.isLock) = true ↔ c = t.primaryKey ∨ t.lockColumn? = some c := by
  rw [Bool.or_eq_true, h.lockColumn?_eq_some_iff, and_iff_right hc]
  refine or_congr_left ⟨h.key c hc, ?_⟩
  rintro rfl
  exact t.primaryKey_primary

/-- `t'` is `t` with one relation more. -/
structure Extends (t t' : Table) (identifier : String) : Prop where
  name : t'.name = t.name
  columns : t'.columns = t.columns
  primaryKey : t'.primaryKey = t.primaryKey
  relations : t'.relationNames.Perm (identifier :: t.relationNames)

theorem Sound.extend {t t' : Table} {identifier : String} (h : t.Sound)
    (he : t.Extends t' identifier) (hn : t.hasRelation identifier = false) : t'.Sound where
  columns := he.columns ▸ h.columns
  key := by rw [he.columns, he.primaryKey]; exact h.key
  locks := he.columns ▸ h.locks
  lock_integer := by rw [he.columns]; exact h.lock_integer
  relations := by
    rw [he.relations.nodup_iff, List.nodup_cons, mem_relationNames, hn]
    exact ⟨Bool.false_ne_true, h.relations⟩

end Table

namespace Schema

/-! ## The first pass -/

/-- Columns so far: each has a name and an identifier of its own, and versions are integers. -/
theorem columnsOf_sound {table : String} :
    ∀ (decls : List ColumnDecl) {done columns : List Column}, done.Pairwise Column.Apart →
      (∀ c ∈ done, c.isLock = true → c.receiver.intBits?.isSome = true) →
      columnsOf table done decls = .ok columns → columns.Pairwise Column.Apart ∧
        ∀ c ∈ columns, c.isLock = true → c.receiver.intBits?.isSome = true
  | [], done, columns, hp, hl, h => by cases h; exact ⟨hp, hl⟩
  | c :: rest, done, columns, hp, hl, h => by
    simp only [columnsOf] at h
    split at h
    · cases h
    · rename_i hany
      split at h
      · cases h
      · rename_i hlock
        have hapart : ∀ d ∈ done, d.Apart (columnOf c) := by
          intro d hd
          have : ¬(d.name = (columnOf c).name ∨ d.identifier = (columnOf c).identifier) :=
            fun hor => hany (List.any_eq_true.2 ⟨d, hd, by simpa using hor⟩)
          exact not_or.1 this
        refine columnsOf_sound rest ?_ ?_ h
        · refine List.pairwise_append.2 ⟨hp, List.pairwise_singleton _ _, fun d hd e he => ?_⟩
          exact List.mem_singleton.1 he ▸ hapart d hd
        · intro d hd hdl
          rcases List.mem_append.1 hd with hd | hd
          · exact hl d hd hdl
          · obtain rfl := List.mem_singleton.1 hd
            exact Option.isSome_iff_ne_none.2 (by simpa [hdl] using hlock)

/-- The one column that is marked is the key. -/
theorem eq_key_of_keyIndices {columns : List Column} {i : Nat} (h : keyIndices columns = [i])
    (hi : i < columns.length) {c : Column} (hc : c ∈ columns) (hp : c.primaryKey = true) :
    c = columns.get ⟨i, hi⟩ := by
  obtain ⟨k, hk, rfl⟩ := List.mem_iff_getElem.1 hc
  have hmem : k ∈ keyIndices columns := by
    refine List.mem_filter.2 ⟨List.mem_range.2 hk, ?_⟩
    simpa [List.getElem?_eq_getElem hk] using hp
  rw [h, List.mem_singleton] at hmem
  subst hmem
  rfl

theorem tableOf_sound {database : String} {decl : TableDecl} {t : Table}
    (h : tableOf database decl = .ok t) : t.name = decl.name ∧ t.Sound := by
  obtain ⟨columns, hcols, h⟩ := bind_eq_ok_iff.1 h
  obtain ⟨hp, hl⟩ := columnsOf_sound decl.columns List.Pairwise.nil (by simp) hcols
  split at h
  · cases h
  · rename_i i hkeys
    split at h
    · cases h
    · rename_i hlocks
      cases h
      refine ⟨rfl, hp, ?_, Nat.le_of_not_lt hlocks, hl, by simp [Table.relationNames]⟩
      exact fun c hc hpk => eq_key_of_keyIndices hkeys _ hc hpk
  · cases h

/-- Tables in which names settle what they name. -/
structure SoundTables (tables : List Table) : Prop where
  names : (tables.map (·.name)).Nodup
  sound : ∀ t ∈ tables, t.Sound

theorem find?_eq_some {tables : List Table} {name : String} {t : Table}
    (h : find? tables name = some t) : t ∈ tables ∧ t.name = name :=
  ⟨List.mem_of_find?_eq_some h, by simpa using List.find?_some h⟩

theorem tablesOf_sound {database : String} :
    ∀ (decls : List TableDecl) {done tables : List Table}, SoundTables done →
      tablesOf database done decls = .ok tables → SoundTables tables
  | [], done, tables, hs, h => by cases h; exact hs
  | decl :: rest, done, tables, hs, h => by
    simp only [tablesOf] at h
    split at h
    · cases h
    · rename_i hnew
      obtain ⟨t, ht, h⟩ := bind_eq_ok_iff.1 h
      obtain ⟨hname, hsound⟩ := tableOf_sound ht
      refine tablesOf_sound rest ⟨?_, ?_⟩ h
      · rw [List.map_append, List.nodup_append]
        refine ⟨hs.names, by simp, ?_⟩
        rintro _ ha _ hb rfl
        obtain ⟨d, hd, hdn⟩ := List.mem_map.1 ha
        simp only [List.map_cons, List.map_nil, List.mem_singleton] at hb
        refine hnew (List.find?_isSome.2 ⟨d, hd, ?_⟩)
        rw [beq_iff_eq, hdn, hb, hname]
      · intro d hd
        rcases List.mem_append.1 hd with hd | hd
        · exact hs.sound d hd
        · exact List.mem_singleton.1 hd ▸ hsound

/-! ## The second pass -/

/-- A relation under a name that was free. -/
theorem modify_sound {tables : List Table} {name identifier : String} {f : Table → Table}
    (hs : SoundTables tables) (hf : ∀ t : Table, t.Extends (f t) identifier)
    (hc : claim tables name identifier = .ok ()) : SoundTables (modify tables name f) where
  names := by
    have hn : (modify tables name f).map (·.name) = tables.map (·.name) := by
      simp only [modify, List.map_map]
      refine List.map_congr_left fun t _ => ?_
      simp only [Function.comp_apply]
      split
      · exact (hf t).name
      · rfl
    rw [hn]
    exact hs.names
  sound := by
    intro t' ht'
    obtain ⟨t, ht, rfl⟩ := List.mem_map.1 ht'
    split
    · rename_i heq
      have hfind : find? tables name = some t := by
        cases hfd : find? tables name with
        | none => exact absurd heq (by simpa using List.find?_eq_none.1 hfd t ht)
        | some u =>
          obtain ⟨hu, hun⟩ := find?_eq_some hfd
          refine congrArg some (List.inj_on_of_nodup_map hs.names hu ht ?_)
          rw [hun, beq_iff_eq.1 heq]
      refine (hs.sound t ht).extend (hf t) ?_
      simpa [claim, hfind] using hc
    · exact hs.sound t ht

theorem addReference_extends (r : Reference) (t : Table) :
    t.Extends (addReference r t) r.identifier where
  name := rfl
  columns := rfl
  primaryKey := rfl
  relations := by
    simp only [Table.relationNames, addReference, List.map_append, List.map_cons, List.map_nil,
      List.append_assoc, List.singleton_append]
    exact List.perm_middle

theorem addReverse_extends (r : Reverse) (t : Table) :
    t.Extends (addReverse r t) r.identifier where
  name := rfl
  columns := rfl
  primaryKey := rfl
  relations := by
    simp only [Table.relationNames, addReverse, List.map_append, List.map_cons, List.map_nil,
      ← List.append_assoc]
    simp only [List.append_assoc _ [r.identifier], List.singleton_append]
    exact List.perm_middle

theorem addManyMany_extends (m : ManyMany) (t : Table) :
    t.Extends (addManyMany m t) m.identifier where
  name := rfl
  columns := rfl
  primaryKey := rfl
  relations := by
    simp only [Table.relationNames, addManyMany, List.map_append, List.map_cons, List.map_nil,
      ← List.append_assoc]
    exact List.perm_append_singleton _ _

theorem wireReference_sound {owner : String} {tables tables' : List Table} {r : ReferenceDecl}
    (hs : SoundTables tables) (h : wireReference owner tables r = .ok tables') :
    SoundTables tables' := by
  obtain ⟨target, -, h⟩ := bind_eq_ok_iff.1 h
  cases hfk : (find? tables owner).bind (·.column? r.column) with
  | none => simp only [hfk] at h; cases h
  | some fk =>
    simp only [hfk] at h
    obtain ⟨_, hok, h⟩ := bind_eq_ok_iff.1 h
    cases hok
    obtain ⟨⟨⟩, hclaim, h⟩ := bind_eq_ok_iff.1 h
    have h1 := modify_sound hs
      (addReference_extends ⟨r.identifier, fk.name, r.targetTable, target.primaryKey.name⟩) hclaim
    cases hrev : r.reverseIdentifier with
    | none => simp only [hrev] at h; cases h; exact h1
    | some reverse =>
      simp only [hrev] at h
      obtain ⟨⟨⟩, hclaim, h⟩ := bind_eq_ok_iff.1 h
      cases h
      exact modify_sound h1 (addReverse_extends _) hclaim

theorem wireAssociation_sound {tables tables' : List Table} {a : AssociationDecl}
    (hs : SoundTables tables) (h : wireAssociation tables a = .ok tables') :
    SoundTables tables' := by
  obtain ⟨_, -, h⟩ := bind_eq_ok_iff.1 h
  obtain ⟨_, -, h⟩ := bind_eq_ok_iff.1 h
  obtain ⟨⟨⟩, hleft, h⟩ := bind_eq_ok_iff.1 h
  obtain ⟨⟨⟩, hright, h⟩ := bind_eq_ok_iff.1 h
  cases h
  exact modify_sound (modify_sound hs (addManyMany_extends _) hleft) (addManyMany_extends _) hright

/-- **Sound schemas.** What a declaration resolves to is sound. -/
theorem ofDeclaration_sound {d : SchemaDecl} {s : Schema} (h : ofDeclaration d = .ok s) :
    SoundTables s.tables := by
  obtain ⟨tables, h1, h⟩ := bind_eq_ok_iff.1 (mapError_eq_ok_iff.1 h)
  obtain ⟨tables', h2, h⟩ := bind_eq_ok_iff.1 h
  obtain ⟨tables'', h3, h⟩ := bind_eq_ok_iff.1 h
  cases h
  have hs := tablesOf_sound d.tables ⟨by simp, by simp⟩ h1
  have hs' : SoundTables tables' := by
    refine foldlM_keeps (fun t _ tables tables' hs hw => ?_) hs h2
    exact foldlM_keeps (fun r _ _ _ hs hr => wireReference_sound hs hr) hs hw
  exact foldlM_keeps (fun a _ _ _ hs ha => wireAssociation_sound hs ha) hs' h3

end Schema

end RecordGraph
