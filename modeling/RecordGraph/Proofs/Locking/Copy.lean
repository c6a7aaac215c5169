import RecordGraph.Proofs.Locking.Store
import RecordGraph.Proofs.Node.Over
import RecordGraph.Proofs.Record.SaveSteps
import RecordGraph.Proofs.Schema.Sound

/-!
# Copies of rows

A client holds a copy of a row under its key, with the version that was loaded. Setting columns
never touches either of them, so every write is guarded by both.

* `Held`: what setting and saving leave as it is; `Held.set`, `Held.written`.
* `Held.save_of_mem`, `Held.delete_of_mem`: the stored version is the copy's, and the write meets
  the row.
* `Held.saves`, `Held.deletes`: nobody wrote the row since, and the write takes effect.
* `Held.save_refused`, `Held.delete_refused`: somebody did, and it is refused.
-/
namespace RecordGraph.Locking

variable {τ : Type}

/-- The record is a copy of the row under the key `k`, as it was at the version `p`; only columns
beside the two are changed. -/
structure Held (table : Table) (lock : Column) (r : Record) (k : Value) (p : Int64) : Prop where
  table_eq : r.table = table
  saved : r.isNew = false
  plain : r.slots = .empty
  key : r.values.find? table.primaryKey.name = some k
  version : r.values.find? lock.name = some (.int p)
  dirty : ∀ name, r.dirty.contains name = true →
    ∃ c ∈ table.columns, c.name = name ∧ c.primaryKey = false ∧ c.isLock = false

/-- A table with a version beside its key. -/
structure Guarded (table : Table) (lock : Column) : Prop where
  sound : table.Sound
  lock_eq : table.lockColumn? = some lock
  lock_key : lock.primaryKey = false

namespace Guarded

variable {table : Table} {lock : Column} (hg : Guarded table lock)
include hg

theorem lock_mem : lock ∈ table.columns := List.mem_of_find?_eq_some hg.lock_eq

theorem lock_isLock : lock.isLock = true := List.find?_some hg.lock_eq

/-- A column beside the key has another name. -/
theorem name_ne_key {c : Column} (hc : c ∈ table.columns) (hp : c.primaryKey = false) :
    c.name ≠ table.primaryKey.name := by
  intro hn
  have heq := hg.sound.column_eq hc table.primaryKey_mem hn
  rw [heq, table.primaryKey_primary] at hp
  cases hp

theorem name_ne_lock {c : Column} (hc : c ∈ table.columns) (hl : c.isLock = false) :
    c.name ≠ lock.name := by
  intro hn
  have heq := hg.sound.column_eq hc hg.lock_mem hn
  rw [heq, hg.lock_isLock] at hl
  cases hl

end Guarded

theorem contains_insert {α : Type} {m : NameMap α} {name other : String} {v : α}
    (h : (m.insert name v).contains other = true) : other = name ∨ m.contains other = true := by
  by_cases hn : other = name
  · exact .inl hn
  · rw [NameMap.contains, NameMap.find?_insert_of_ne m v hn] at h
    exact .inr h

theorem exists_contains {α : Type} {m : NameMap α} (h : m.isEmpty = false) :
    ∃ name, m.contains name = true := by
  obtain ⟨_ | ⟨⟨name, v⟩, rest⟩⟩ := m
  · cases h
  · refine ⟨name, ?_⟩
    simp [NameMap.contains, NameMap.find?]

namespace Held

variable {table : Table} {lock : Column} {r : Record} {k : Value} {p : Int64}

/-- What is loaded from a row with its key and its version is a copy. -/
theorem of_loaded {values calculations : NameMap Value}
    (hk : values.find? table.primaryKey.name = some k)
    (hp : values.find? lock.name = some (.int p)) :
    Held table lock (.loaded table values calculations .empty) k p where
  table_eq := rfl
  saved := rfl
  plain := rfl
  key := hk
  version := hp
  dirty _ h := by cases h

section
variable (hh : Held table lock r k p)
include hh

theorem key_eq : r.key = k := by
  rw [Record.key, hh.table_eq, hh.key]
  rfl

theorem version_eq : r.version lock = .ok p := by
  rw [Record.version, hh.version]
  rfl

/-- **Setting.** A set column changes neither the key nor the version. -/
theorem set (hg : Guarded table lock) {name : String} {v : Value} {r' : Record}
    (h : r.set name v = .ok r') : Held table lock r' k p := by
  simp only [Record.set, hh.table_eq] at h
  split at h
  · cases h
  · rename_i c hc
    have hmem := Table.mem_of_column? hc
    split at h
    · cases h
    · rename_i hlock
      rw [Bool.not_eq_true] at hlock
      split at h
      · cases h
      · rename_i hkey
        cases h
        rw [Record.assign]
        by_cases hholds : r.holds c.name v = true
        · rw [if_pos hholds]
          exact hh
        · rw [if_neg hholds]
          -- the key is set to what it is, or not at all
          have hpk : c.primaryKey = false := by
            rw [Bool.eq_false_iff]
            intro hpk
            obtain rfl := hg.sound.key c hmem hpk
            simp only [hpk, hh.saved, hh.key_eq, Bool.not_false, Bool.and_self, Bool.true_and,
              Bool.not_eq_true', Bool.not_eq_false] at hkey
            rw [Record.holds, hh.key] at hholds
            exact hholds hkey
          refine ⟨hh.table_eq, hh.saved, hh.plain, ?_, ?_, fun other ho => ?_⟩
          · rw [NameMap.find?_insert_of_ne _ _ (hg.name_ne_key hmem hpk).symm]
            exact hh.key
          · rw [NameMap.find?_insert_of_ne _ _ (hg.name_ne_lock hmem hlock).symm]
            exact hh.version
          · rcases contains_insert ho with rfl | ho
            · exact ⟨c, hmem, rfl, hpk, hlock⟩
            · exact hh.dirty other ho

/-- **Saving.** A copy that was saved is one of the row at its new version. -/
theorem written (hg : Guarded table lock) (v : Int64) :
    Held table lock (r.put lock.name (.int v)).clean k v where
  table_eq := hh.table_eq
  saved := hh.saved
  plain := hh.plain
  key := by
    have hne := hg.name_ne_key hg.lock_mem hg.lock_key
    rw [Record.clean, Record.put, NameMap.find?_insert_of_ne _ _ hne.symm]
    exact hh.key
  version := NameMap.find?_insert_self ..
  dirty _ h := by cases h

/-! ## What a copy sends -/

theorem updateFields_ne_nil (hd : r.isDirty = true) : r.updateFields ≠ [] := by
  rw [Record.isDirty, Bool.not_eq_true'] at hd
  obtain ⟨name, hname⟩ := exists_contains hd
  obtain ⟨c, hc, rfl, hpk, hlock⟩ := hh.dirty name hname
  have hmem : c ∈ r.table.columns.filter
      fun c => !c.primaryKey && !c.isLock && r.dirty.contains c.name := by
    rw [hh.table_eq, List.mem_filter]
    simp [hc, hpk, hlock, hname]
  intro hnil
  rw [Record.updateFields, List.map_eq_nil_iff] at hnil
  rw [hnil] at hmem
  cases hmem

/-- What is sent leaves the key as it is. -/
theorem assign_key (hg : Guarded table lock) (v : Int64) (x : Tuple) :
    assign (r.updateFields ++ [⟨lock, .int v⟩]) x table.primaryKey.name
      = x table.primaryKey.name := by
  refine assign_of_ne fun f hf => ?_
  rcases List.mem_append.1 hf with hf | hf
  · obtain ⟨c, hc, rfl⟩ := List.mem_map.1 hf
    rw [hh.table_eq, List.mem_filter] at hc
    obtain ⟨hc, hbool⟩ := hc
    simp only [Bool.and_eq_true, Bool.not_eq_true'] at hbool
    exact hg.name_ne_key hc hbool.1.1
  · rw [List.mem_singleton.1 hf]
    exact hg.name_ne_key hg.lock_mem hg.lock_key

end

end Held

/-! ## Against a database -/

/-- The database executes every command on the table at once, on the rows that its guard meets, and
asks for versions without touching the rows. -/
structure Executes (eq : Equality) (table : Table) (db : Connection (Store τ)) : Prop where
  update : ∀ set guard s, db.execute (.update table set guard) s
    = (.ok (s.hits eq guard).length, s.update eq table set guard)
  delete : ∀ guard s, db.execute (.delete table guard) s
    = (.ok (s.hits eq guard).length, s.delete eq table guard)
  nextVersion : ∀ previous s, ∃ t, (db.nextVersion previous s).2 = { s with versions := t }

section
variable (eq : Equality) (table : Table) (lock : Column) (db : Connection (Store τ)) (r : Record)
  (s : Store τ)

/-- Saving takes effect: the row with the key of the record, which has the version `p`, gets the
changed columns and the version after `p`, and so does the record. -/
def Saves : Prop := ∃ x ∈ s.rows, ∃ p t,
  eq.holds (x table.primaryKey.name) r.key = true ∧ x lock.name = .int p ∧
    let v := (db.nextVersion (some p) s).1
    Record.save db (r, s) = (.ok (), (r.put lock.name (.int v)).clean, {
      rows := s.rows.map fun y =>
        if eq.holds (y table.primaryKey.name) r.key then
          assign (r.updateFields ++ [⟨lock, .int v⟩]) y
        else y
      log := s.log ++ [.update (x table.primaryKey.name)]
      versions := t })

/-- Saving loses against another writer; the record and the rows stay as they were. -/
def SaveRefused : Prop := ∃ t, Record.save db (r, s) =
  (.error (.optimisticLock table.name r.key.shown), r, { s with versions := t })

/-- Deleting takes effect: the row with the key of the record is gone. -/
def Deletes : Prop := ∃ x ∈ s.rows, eq.holds (x table.primaryKey.name) r.key = true ∧
  Record.delete db r s = (.ok (), { s with
    rows := s.rows.filter fun y => !eq.holds (y table.primaryKey.name) r.key
    log := s.log ++ [.delete (x table.primaryKey.name)] })

/-- Deleting loses against another writer. -/
def DeleteRefused : Prop :=
  Record.delete db r s = (.error (.optimisticLock table.name r.key.shown), s)

end

namespace Held

variable {eq : Equality} {table : Table} {lock : Column} {db : Connection (Store τ)} {r : Record}
  {k : Value} {p : Int64} {s : Store τ} {since : Nat} (hg : Guarded table lock)
  (he : Executes eq table db) (hh : Held table lock r k p) (hk : eq.holds k k = true)
include hg hh

theorem lockColumn?_eq : r.table.lockColumn? = some lock := hh.table_eq.symm ▸ hg.lock_eq

theorem lost_eq : r.lost = .optimisticLock table.name r.key.shown := by
  rw [Record.lost, hh.lockColumn?_eq hg, hh.table_eq]
  rfl

include hk

omit hg in
theorem isNull_eq : r.key.isNull = false := by
  rw [hh.key_eq]
  cases k with
  | null => rw [eq.null] at hk; cases hk
  | _ => rfl

omit hg hk in
/-- A copy that is not changed sends nothing. -/
theorem save_unchanged (db : Connection (Store τ)) (hd : r.isDirty = false) :
    Record.save db (r, s) = (.ok (), r, s) := by
  have hwrite : Record.write db (r, s) = (.ok (), r, s) := by
    rw [Record.write_run db hh.saved, hd]
    rfl
  rw [Record.save_run db hh.plain s (by rw [hwrite]; exact hh.plain), hwrite]

include he

/-- A changed copy sends an update, which meets the rows with its key and its version. -/
theorem save_eq (hd : r.isDirty = true) : ∃ t,
    let guard : List Field := [⟨table.primaryKey, r.key⟩, ⟨lock, .int p⟩]
    let v := (db.nextVersion (some p) s).1
    Record.save db (r, s) = if (s.hits eq guard).length = 0 then (.error r.lost, (r, {
        s.update eq table (r.updateFields ++ [⟨lock, .int v⟩]) guard with versions := t }))
      else (.ok (), ((r.put lock.name (.int v)).clean, {
        s.update eq table (r.updateFields ++ [⟨lock, .int v⟩]) guard with versions := t })) := by
  obtain ⟨t, ht⟩ := he.nextVersion (some p) s
  have hwrite : Record.write db (r, s) = Record.update db (r, s) := by
    rw [Record.write_run db hh.saved, if_pos hd]
  have hupdate := Record.update_run db (hh.lockColumn?_eq hg) (hh.isNull_eq hk) hh.version_eq
    (hh.updateFields_ne_nil hd) s
  simp only [hh.table_eq, ht, he.update] at hupdate
  refine ⟨t, ?_⟩
  have hslots : (Record.write db (r, s)).2.1.slots = .empty := by
    rw [hwrite, hupdate]
    split
    · exact hh.plain
    · exact hh.plain
  rw [Record.save_run db hh.plain s hslots, hwrite, hupdate]
  rfl

theorem delete_eq :
    let guard : List Field := [⟨table.primaryKey, r.key⟩, ⟨lock, .int p⟩]
    Record.delete db r s = if (s.hits eq guard).length = 0 then
        (.error r.lost, s.delete eq table guard)
      else (.ok (), s.delete eq table guard) := by
  rw [Record.delete_run db (hh.lockColumn?_eq hg) (hh.isNull_eq hk) hh.version_eq, hh.table_eq]
  simp only [he.delete]

/-! The stored version is the copy's. -/

section
variable (hv : s.Valid eq table lock) {x : Tuple} (hx : x ∈ s.rows)
  (hxk : eq.holds (x table.primaryKey.name) k = true) (hxp : x lock.name = .int p)
include hv hx hxk hxp

theorem save_of_mem (hd : r.isDirty = true) : ∃ t,
    let v := (db.nextVersion (some p) s).1
    Record.save db (r, s) = (.ok (), (r.put lock.name (.int v)).clean, {
      s.update eq table (r.updateFields ++ [⟨lock, .int v⟩])
        [⟨table.primaryKey, k⟩, ⟨lock, .int p⟩] with versions := t }) := by
  obtain ⟨t, hsave⟩ := hh.save_eq hg he hk (s := s) hd
  simp only [hh.key_eq, hv.hits_eq hx hxk hxp] at hsave
  exact ⟨t, hsave⟩

theorem delete_of_mem : Record.delete db r s
    = (.ok (), s.delete eq table [⟨table.primaryKey, k⟩, ⟨lock, .int p⟩]) := by
  have hdelete := hh.delete_eq hg he hk (s := s)
  simp only [hh.key_eq, hv.hits_eq hx hxk hxp] at hdelete
  exact hdelete

theorem saves_of_mem (hd : r.isDirty = true) : Saves eq table lock db r s := by
  obtain ⟨t, hsave⟩ := hh.save_of_mem hg he hk hv hx hxk hxp hd
  refine ⟨x, hx, p, t, hh.key_eq ▸ hxk, hxp, ?_⟩
  simp only [hsave, hv.update_eq hx hxk hxp, hh.key_eq]

theorem deletes_of_mem : Deletes eq table db r s := by
  refine ⟨x, hx, hh.key_eq ▸ hxk, ?_⟩
  rw [hh.delete_of_mem hg he hk hv hx hxk hxp, hv.delete_eq hx hxk hxp, hh.key_eq]

end

/-! The guard of the copy meets no row. -/

section
variable (hhits : s.hits eq [⟨table.primaryKey, r.key⟩, ⟨lock, .int p⟩] = [])
include hhits

theorem save_refused_of_hits (hd : r.isDirty = true) : SaveRefused table db r s := by
  obtain ⟨t, hsave⟩ := hh.save_eq hg he hk (s := s) hd
  simp only [hhits, Store.update_eq_self hhits, hh.lost_eq hg] at hsave
  exact ⟨t, hsave⟩

theorem delete_refused_of_hits : DeleteRefused table db r s := by
  have hdelete := hh.delete_eq hg he hk (s := s)
  simp only [hhits, Store.delete_eq_self hhits, hh.lost_eq hg] at hdelete
  exact hdelete

end

variable (ht : s.Tracks eq table lock since k p)
include ht

section
variable (hv : s.Valid eq table lock) (hw : ¬s.WrittenSince eq since r.key)
include hv hw

theorem saves (hd : r.isDirty = true) : Saves eq table lock db r s := by
  rw [hh.key_eq] at hw
  obtain ⟨x, hx, hxk, hxp⟩ := ht.fresh hw
  exact hh.saves_of_mem hg he hk hv hx hxk hxp hd

theorem deletes : Deletes eq table db r s := by
  rw [hh.key_eq] at hw
  obtain ⟨x, hx, hxk, hxp⟩ := ht.fresh hw
  exact hh.deletes_of_mem hg he hk hv hx hxk hxp

end

/-! The row was written since. -/

section
variable (hw : s.WrittenSince eq since r.key)
include hw

omit he hk hg in
/-- A copy of a row that was written since meets nothing. -/
theorem hits_eq_nil : s.hits eq [⟨table.primaryKey, r.key⟩, ⟨lock, .int p⟩] = [] := by
  rw [hh.key_eq] at hw ⊢
  exact Store.hits_eq_nil (ht.stale hw)

theorem save_refused (hd : r.isDirty = true) : SaveRefused table db r s :=
  hh.save_refused_of_hits hg he hk (hh.hits_eq_nil ht hw) hd

theorem delete_refused : DeleteRefused table db r s :=
  hh.delete_refused_of_hits hg he hk (hh.hits_eq_nil ht hw)

end

end Held

end RecordGraph.Locking
