import RecordGraph.Proofs.Connection.Run

/-!
# What saving one record does

A record without loaded relations is written alone. What is sent for a saved one names the key and,
on a table with a lock column, the version that was loaded; nothing of the record changes unless a
row was met.

* `Record.save_run`: without relations, saving is writing.
* `Record.write_run`: what writing a saved and changed record does.
* `Record.guarded_run`: how a guarded write ends, and `Record.update_run` for an update.
* `Record.delete_run`: what deleting does.
-/
namespace RecordGraph

theorem Saving.record_bind {σ α : Type} (f : Record → Saving σ α) (r : Record) (s : σ) :
    (Saving.record >>= f) (r, s) = f r (r, s) := rfl

namespace Record

variable {σ : Type} (db : Connection σ)

section
variable {r : Record} (hslots : r.slots = .empty) (s : σ)
include hslots

theorem find?_slots_eq_none (identifier : String) : r.slots.find? identifier = none := by
  rw [hslots]; rfl

theorem depth_eq_one : r.depth = 1 := by
  obtain ⟨table, values, dirty, isNew, slots, calculations⟩ := r
  cases hslots
  simp [depth, slotsDepth]

/-! Relations that are not loaded are left alone. -/

theorem saveReference_run (save : Saving σ Unit) (reference : Reference) :
    saveReference save reference (r, s) = (.ok (), (r, s)) := by
  rw [saveReference, Saving.record_bind]
  simp only [find?_slots_eq_none hslots]
  rfl

theorem saveReverse_run (save : Saving σ Unit) (key : Value) (reverse : Reverse) :
    saveReverse save key reverse (r, s) = (.ok (), (r, s)) := by
  rw [saveReverse, Saving.record_bind]
  simp only [find?_slots_eq_none hslots]
  rfl

theorem saveManyMany_run (save : Saving σ Unit) (key : Value) (relation : ManyMany) :
    saveManyMany db save key relation (r, s) = (.ok (), (r, s)) := by
  rw [saveManyMany, Saving.record_bind]
  simp only [find?_slots_eq_none hslots]
  rfl

omit hslots in
theorem save_eq : save db (r, s) = saveWithin db r.depth (r, s) := rfl

omit hslots in
/-- Saving without relations that are loaded. -/
theorem saveWithin_one : saveWithin db 1 (r, s) = (do
    let table := (← Saving.record).table
    table.references.forM (saveReference (pure ()))
    write db
    let key := (← Saving.record).key
    table.reverses.forM (saveReverse (pure ()) key)
    table.manyManys.forM (saveManyMany db (pure ()) key) : Saving σ Unit) (r, s) := rfl

/-- A record without relations is written and no more. -/
theorem save_run (hw : (write db (r, s)).2.1.slots = .empty) :
    save db (r, s) = write db (r, s) := by
  rw [save_eq, depth_eq_one hslots, saveWithin_one, Saving.record_bind, Session.bind_run,
    Session.forM_run _ fun reference _ => saveReference_run hslots s _ reference]
  simp only
  rw [Session.bind_run]
  rcases hwrite : write db (r, s) with ⟨e | ⟨⟩, r', s'⟩
  · rfl
  · have hslots' : r'.slots = .empty := by rw [hwrite] at hw; exact hw
    simp only
    rw [Saving.record_bind, Session.bind_run,
      Session.forM_run _ fun reverse _ => saveReverse_run hslots' s' _ _ reverse]
    exact Session.forM_run _ fun relation _ => saveManyMany_run db hslots' s' _ _ relation

end

/-- A saved record is written by an update of what was changed. -/
theorem write_run {r : Record} (hnew : r.isNew = false) (s : σ) :
    write db (r, s) = if r.isDirty then update db (r, s) else (.ok (), (r, s)) := by
  rw [write, Saving.record_bind]
  simp only [hnew, Bool.false_eq_true, if_false]
  cases r.isDirty <;> rfl

theorem guardFields_eq {r : Record} {lock : Column} (hl : r.table.lockColumn? = some lock)
    (hkey : r.key.isNull = false) {p : Int64} (hp : r.version lock = .ok p) :
    r.guardFields = .ok [⟨r.table.primaryKey, r.key⟩, ⟨lock, .int p⟩] := by
  simp only [guardFields, hkey, hl, hp, Bool.false_eq_true, if_false]
  rfl

/-- Without a version only the key guards. -/
theorem guardFields_eq_key {r : Record} (hl : r.table.lockColumn? = none)
    (hkey : r.key.isNull = false) : r.guardFields = .ok [⟨r.table.primaryKey, r.key⟩] := by
  simp only [guardFields, hkey, hl, Bool.false_eq_true, if_false]

/-- A guarded write changes the record if it met a row. -/
theorem guarded_run (c : Command) (e : Error) (f : Record → Record) (r : Record) (s : σ) :
    (do
      let touched ← (db.execute c).onSecond
      if touched = 0 then throw e
      Saving.change f : Saving σ Unit) (r, s) =
      match db.execute c s with
      | (.ok touched, s') => if touched = 0 then (.error e, (r, s')) else (.ok (), (f r, s'))
      | (.error e', s') => (.error e', (r, s')) := by
  rw [Session.bind_run, Session.onSecond_run]
  rcases db.execute c s with ⟨e' | touched, s'⟩
  · rfl
  · by_cases ht : touched = 0
    · simp only [ht, if_true]
      rfl
    · simp only [ht, if_false]
      rfl

theorem update_run {r : Record} {lock : Column} (hl : r.table.lockColumn? = some lock)
    (hkey : r.key.isNull = false) {p : Int64} (hp : r.version lock = .ok p)
    (hset : r.updateFields ≠ []) (s : σ) :
    update db (r, s) =
      let v := (db.nextVersion (some p) s).1
      match db.execute (.update r.table (r.updateFields ++ [⟨lock, .int v⟩])
          [⟨r.table.primaryKey, r.key⟩, ⟨lock, .int p⟩]) (db.nextVersion (some p) s).2 with
      | (.ok touched, s') =>
        if touched = 0 then (.error r.lost, (r, s'))
        else (.ok (), ((r.put lock.name (.int v)).clean, s'))
      | (.error e, s') => (.error e, (r, s')) := by
  rw [update, Saving.record_bind]
  simp only [Session.bind_run, Session.ofExcept_run, guardFields_eq hl hkey hp, hl, hp,
    List.isEmpty_iff, hset, if_false, Session.lift_run, stateOnSecond_run]
  exact (Session.bind_run ..).symm.trans (guarded_run db _ _ _ r _)

theorem update_run_key {r : Record} (hl : r.table.lockColumn? = none)
    (hkey : r.key.isNull = false) (hset : r.updateFields ≠ []) (s : σ) :
    update db (r, s) =
      match db.execute (.update r.table r.updateFields [⟨r.table.primaryKey, r.key⟩]) s with
      | (.ok touched, s') =>
        if touched = 0 then (.error r.lost, (r, s')) else (.ok (), (r.clean, s'))
      | (.error e, s') => (.error e, (r, s')) := by
  rw [update, Saving.record_bind]
  simp only [Session.bind_run, Session.ofExcept_run, guardFields_eq_key hl hkey, hl,
    List.isEmpty_iff, hset, if_false]
  exact (Session.bind_run ..).symm.trans (guarded_run db _ _ _ r _)

/-- Changes of nothing but keys and versions are not sent. -/
theorem update_run_nil {r : Record} {guard : List Field} (hguard : r.guardFields = .ok guard)
    (hset : r.updateFields = []) (s : σ) : update db (r, s) = (.ok (), (r.clean, s)) := by
  rw [update, Saving.record_bind]
  simp only [Session.bind_run, Session.ofExcept_run, hguard, hset, List.isEmpty_nil, if_true]
  rfl

theorem delete_run {r : Record} {lock : Column} (hl : r.table.lockColumn? = some lock)
    (hkey : r.key.isNull = false) {p : Int64} (hp : r.version lock = .ok p) (s : σ) :
    delete db r s =
      match db.execute (.delete r.table [⟨r.table.primaryKey, r.key⟩, ⟨lock, .int p⟩]) s with
      | (.ok touched, s') => if touched = 0 then (.error r.lost, s') else (.ok (), s')
      | (.error e, s') => (.error e, s') := by
  simp only [delete, Session.bind_run, Session.ofExcept_run, guardFields_eq hl hkey hp]
  rcases db.execute _ _ with ⟨e | touched, s'⟩
  · rfl
  · by_cases ht : touched = 0
    · simp [ht, Session.throw_run]
    · simp [ht, Session.pure_run]

end Record

end RecordGraph
