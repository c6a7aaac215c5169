import RecordGraph.Proofs.Locking.Copy
import RecordGraph.Proofs.Record.Written
import RecordGraph.Version

/-!
# New rows of a guarded table

Saving a new record sends one insertion, which names the first version. The database adds the row
under a key that no stored row has, or it adds nothing; whatever else it is asked on the way leaves
the rows alone.

* `Stores`: a database that executes commands on the table at once, and whose versions count.
* `Stores.insert_adds`, `Stores.save_adds`: what saving a new record does to the rows.
* `Stores.save_held`: the record is a copy of the new row.
-/
namespace RecordGraph.Locking

variable {τ : Type}

/-- If fields for a column agree on a value, that is what the column is assigned. -/
theorem assign_of_forall {c : String} {v : Value} {fields : List Field} :
    ∀ {x : Tuple}, (∀ f ∈ fields, f.column.name = c → f.value = v) →
      (x c = v ∨ ∃ f ∈ fields, f.column.name = c) → assign fields x c = v := by
  induction fields with
  | nil =>
    intro x _ h
    exact h.resolve_right (by simp)
  | cons f fields ih =>
    intro x hall h
    rw [assign, List.foldl_cons, ← assign]
    refine ih (fun g hg => hall g (List.mem_cons_of_mem _ hg)) ?_
    by_cases hc : f.column.name = c
    · left
      rw [if_pos hc.symm]
      exact hall f List.mem_cons_self hc
    · rw [if_neg (Ne.symm hc)]
      rcases h with h | ⟨g, hg, hgc⟩
      · exact .inl h
      · rcases List.mem_cons.1 hg with rfl | hg
        · exact absurd hgc hc
        · exact .inr ⟨g, hg, hgc⟩

namespace Store

/-- Rows and writes are the same; the strategy may remember something else. -/
def Same (s s' : Store τ) : Prop := ∃ t, s' = { s with versions := t }

/-- At most one row was added: one with these columns, under a key of its own. -/
def Adds (eq : Equality) (table : Table) (fields : List Field) (s s' : Store τ) : Prop :=
  s.Same s' ∨ ∃ x, (s.insert table (assign fields x)).Same s' ∧
    let k := assign fields x table.primaryKey.name
    eq.holds k k = true ∧ ∀ y ∈ s.rows, eq.holds (y table.primaryKey.name) k = false

theorem Same.refl (s : Store τ) : s.Same s := ⟨s.versions, rfl⟩

theorem Same.trans {s s' s'' : Store τ} (h : s.Same s') (h' : s'.Same s'') : s.Same s'' := by
  obtain ⟨t, rfl⟩ := h
  obtain ⟨t', rfl⟩ := h'
  exact ⟨t', rfl⟩

section
variable {eq : Equality} {table : Table} {fields : List Field} {s s' s'' : Store τ}

theorem Adds.same (h : s.Adds eq table fields s') (h' : s'.Same s'') :
    s.Adds eq table fields s'' := by
  rcases h with h | ⟨x, h, hx⟩
  · exact .inl (h.trans h')
  · exact .inr ⟨x, h.trans h', hx⟩

theorem Same.adds (h : s.Same s') (h' : s'.Adds eq table fields s'') :
    s.Adds eq table fields s'' := by
  obtain ⟨t, rfl⟩ := h
  rcases h' with ⟨t', rfl⟩ | ⟨x, ⟨t', rfl⟩, hx⟩
  · exact .inl ⟨t', rfl⟩
  · exact .inr ⟨x, ⟨t', rfl⟩, hx⟩

end

end Store

/-- A database that counts versions. It executes each command on the table at once; a new row gets a
key that is equal to itself and to no stored key. -/
structure Stores (eq : Equality) (table : Table) (db : Connection (Store τ)) : Prop
    extends Executes eq table db where
  execute_insert : ∀ fields returning (s : Store τ),
    s.Adds eq table fields (db.execute (.insert table fields returning) s).2
  query_insert : ∀ fields returning (s : Store τ),
    s.Adds eq table fields (db.query (.insert table fields returning) s).2
  release : ∀ s : Store τ, s.Same (db.release s).2
  lastInsertId : ∀ s : Store τ, s.Same (db.lastInsertId s).2
  freshUuid : ∀ s : Store τ, s.Same (db.freshUuid s).2
  freshUlid : ∀ s : Store τ, s.Same (db.freshUlid s).2
  counts : ∀ previous s,
    (db.nextVersion previous s).1 = (Versions.fresh .increment).after 0 previous

namespace Stores

variable {eq : Equality} {table : Table} {db : Connection (Store τ)} (hs : Stores eq table db)
include hs

theorem close_same (closing : Except Error Unit) (s : Store τ) :
    s.Same (db.close closing s).2 := by
  refine Session.bind_keeps (P := s.Same) (hs.release s) fun _ s' _ h => ?_
  exact h

theorem firstRow_same (rows : Rows) (s : Store τ) : s.Same (db.firstRow rows s).2 := by
  refine Session.bind_keeps (P := s.Same) (hs.close_same rows.closing s) fun closed s' _ h => ?_
  rcases rows.reads.head?.getD (.ok none) with e | row
  · exact h
  · rcases closed with e | ⟨⟩ <;> exact h

theorem run_adds (fields : List Field) (s : Store τ) :
    s.Adds eq table fields (db.run (.insert table fields none) s).2 :=
  Session.bind_keeps (P := s.Adds eq table fields) (hs.execute_insert fields none s)
    fun _ _ _ h => h

/-- **Adding a row**, whichever way the dialect learns its key. -/
theorem insert_adds (fields : List Field) (s : Store τ) :
    s.Adds eq table fields (db.insert table fields s).2 := by
  unfold Connection.insert
  split
  · cases db.dialect.insertStrategy with
    | returning =>
      refine Session.bind_keeps (P := s.Adds eq table fields) (hs.query_insert fields _ s)
        fun rows s' _ h => ?_
      refine Session.bind_keeps (P := s.Adds eq table fields) (h.same (hs.firstRow_same rows s'))
        fun row s'' _ h => ?_
      rcases row.bind List.head? with _ | raw
      · exact h
      · exact Session.bind_keeps (P := s.Adds eq table fields) h fun _ _ _ h => h
    | lastInsertId =>
      refine Session.bind_keeps (P := s.Adds eq table fields) (hs.run_adds fields s)
        fun _ s' _ h => ?_
      exact h.same (hs.lastInsertId s')
  · exact Session.bind_keeps (P := s.Adds eq table fields) (hs.run_adds fields s) fun _ _ _ h => h

theorem withKey_same (r : Record) (s : Store τ) : s.Same (Record.withKey db r s).2 := by
  unfold Record.withKey
  split
  · split
    · exact hs.freshUuid s
    · exact hs.freshUlid s
    · exact .refl s
  · exact .refl s

theorem prepare_same (r : Record) (s : Store τ) : s.Same (Record.prepare db r s).2 := by
  refine (hs.withKey_same r s).trans ?_
  unfold Record.prepare Record.withVersion
  split
  · exact hs.nextVersion none _
  · exact .refl _

end Stores

/-! ## A new record -/

/-- The key that the database assigned is the only change, if there is one. -/
theorem taken_cases {y z : Record} {assigned : Option Value} (h : y.taken assigned = some z) :
    z = y ∨ ∃ k, z = y.put y.table.primaryKey.name k := by
  rw [Record.taken] at h
  split at h
  · obtain ⟨k, -, rfl⟩ := Option.map_eq_some_iff.1 h
    exact .inr ⟨k, rfl⟩
  · exact .inl (Option.some.inj h).symm

/-- A record of the table that was never saved, without relations. -/
structure Unsaved (table : Table) (r : Record) : Prop where
  table_eq : r.table = table
  isNew : r.isNew = true
  plain : r.slots = .empty

namespace Unsaved

variable {σ : Type} {table : Table} {lock : Column} {r : Record} (hr : Unsaved table r)
include hr

/-- A new row that is sent has the version of the record. -/
theorem assign_insertFields (hg : Guarded table lock) {v : Value}
    (hv : r.values.find? lock.name = some v) (x : Tuple) :
    assign r.insertFields x lock.name = v := by
  refine assign_of_forall (fun f hf hname => ?_) (.inr ⟨⟨lock, v⟩, ?_, rfl⟩)
  · obtain ⟨c, -, hfield⟩ := List.mem_filterMap.1 hf
    split at hfield
    · rename_i w hw
      split at hfield
      · cases hfield
      · cases hfield
        rw [hname, hv] at hw
        exact (Option.some.inj hw).symm
    · cases hfield
  · refine List.mem_filterMap.2 ⟨lock, hr.table_eq.symm ▸ hg.lock_mem, ?_⟩
    simp [hv, hg.lock_key]

variable (db : Connection σ) (s : σ)

/-- Preparing makes up a key and a version, which are columns. -/
theorem prepare : Unsaved table (Record.prepare db r s).1 where
  table_eq := (Record.prepare_table db r s).trans hr.table_eq
  isNew := (Record.prepare_isNew db r s).trans hr.isNew
  plain := by
    have hkey : (Record.withKey db r s).1.slots = r.slots := by
      rcases Record.withKey_cases db r s with ⟨h, -⟩ | ⟨-, v, -, -, h⟩
      · rw [h]
      · rw [h, Record.assign_slots]
    rw [hr.plain] at hkey
    rw [Record.prepare]
    rcases Record.withVersion_cases db (Record.withKey db r s).1 (Record.withKey db r s).2 with
      h | ⟨lock, v, -, h⟩
    · rw [h, hkey]
    · rw [h]
      exact hkey

theorem prepare_version (hg : Guarded table lock)
    (hcounts : ∀ s, (db.nextVersion none s).1 = 1) :
    (Record.prepare db r s).1.values.find? lock.name = some (.int 1) := by
  have hl : (Record.withKey db r s).1.table.lockColumn? = some lock := by
    rw [Record.withKey_table, hr.table_eq]
    exact hg.lock_eq
  rw [Record.prepare, Record.withVersion, hl]
  simp only [hcounts]
  exact NameMap.find?_insert_self ..

theorem write_eq : Record.write db (r, s) = Record.insert db (r, s) := by
  rw [Record.write, Saving.record_bind]
  simp only [hr.isNew, if_true]

/-- **Saving a new record** is inserting it. -/
theorem save_eq : Record.save db (r, s) = Record.insert db (r, s) := by
  have hplain := (hr.prepare db s).plain
  have hslots : (Record.write db (r, s)).2.1.slots = .empty := by
    rw [hr.write_eq, Record.insert_run]
    rcases db.insert _ _ _ with ⟨e | assigned, s'⟩
    · exact hplain
    · simp only
      cases htaken : (Record.prepare db r s).1.taken assigned with
      | none => exact hplain
      | some z =>
        obtain rfl | ⟨k, rfl⟩ := taken_cases htaken
        · exact hplain
        · exact hplain
  rw [Record.save_run db hr.plain s hslots, hr.write_eq]

end Unsaved

namespace Stores

variable {eq : Equality} {table : Table} {lock : Column} {db : Connection (Store τ)}
  (hs : Stores eq table db) (hg : Guarded table lock) {r : Record} (hr : Unsaved table r)
include hs

theorem first (s : Store τ) : (db.nextVersion none s).1 = 1 := hs.counts none s

include hg hr

/-- At most one row is added, at the first version. -/
theorem save_adds (s : Store τ) : ∃ fields, (∀ x, assign fields x lock.name = .int 1) ∧
    s.Adds eq table fields (Record.save db (r, s)).2.2 := by
  refine ⟨(Record.prepare db r s).1.insertFields, fun x => ?_, ?_⟩
  · exact (hr.prepare db s).assign_insertFields hg (hr.prepare_version db s hg hs.first) x
  · have hadds := (hs.prepare_same r s).adds
      (hs.insert_adds (Record.prepare db r s).1.insertFields (Record.prepare db r s).2)
    rw [hr.save_eq, Record.insert_run, hr.table_eq]
    rcases hinsert : db.insert table (Record.prepare db r s).1.insertFields
      (Record.prepare db r s).2 with ⟨e | assigned, s'⟩
    · rw [hinsert] at hadds
      exact hadds
    · rw [hinsert] at hadds
      simp only
      cases (Record.prepare db r s).1.taken assigned <;> exact hadds

/-- A saved record with a key that is equal to itself is a copy of a row at the first version. -/
theorem save_held {s s' : Store τ} {r' : Record} (h : Record.save db (r, s) = (.ok (), r', s'))
    (hself : eq.holds r'.key r'.key = true) : Held table lock r' r'.key 1 := by
  rw [hr.save_eq, Record.insert_run, hr.table_eq] at h
  have hp := hr.prepare db s
  have hversion := hr.prepare_version db s hg hs.first
  generalize Record.prepare db r s = y at h hp hversion
  rcases hinsert : db.insert table y.1.insertFields y.2 with ⟨e | assigned, s₁⟩
  · rw [hinsert] at h
    cases h
  · simp only [hinsert] at h
    cases htaken : y.1.taken assigned with
    | none =>
      rw [htaken] at h
      cases h
    | some z =>
      simp only [htaken] at h
      cases h
      have hz : z.table = table ∧ z.slots = .empty ∧
          z.values.find? lock.name = some (.int 1) := by
        obtain rfl | ⟨k, rfl⟩ := taken_cases htaken
        · exact ⟨hp.table_eq, hp.plain, hversion⟩
        · refine ⟨hp.table_eq, hp.plain, ?_⟩
          rw [Record.put, NameMap.find?_insert_of_ne, hversion]
          rw [hp.table_eq]
          exact hg.name_ne_key hg.lock_mem hg.lock_key
      have hfind : z.values.find? table.primaryKey.name = some z.written.key := by
        have hkey : z.written.key = (z.values.find? table.primaryKey.name).getD .null := by
          rw [Record.key, Record.written, hz.1]
        cases hz' : z.values.find? table.primaryKey.name with
        | none =>
          rw [hkey, hz', Option.getD_none, eq.null] at hself
          cases hself
        | some k =>
          rw [hkey, hz']
          rfl
      exact ⟨hz.1, rfl, hz.2.1, hfind, hz.2.2, fun _ h => by cases h⟩

end Stores

end RecordGraph.Locking
