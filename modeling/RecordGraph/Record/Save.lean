import RecordGraph.Connection.Basic
import RecordGraph.Record.Basic

/-!
# Saving records

Saving a record saves what it refers to first, for their keys become its foreign keys; then the
record itself; then what refers to it or is linked with it, for those need its key. What is written
before a failure stays written, and the records know it.

On a table with a lock column every write names the version that was loaded; a write that meets no
row lost against another writer.

* `Record.save`, `Record.delete`.
-/
namespace RecordGraph

/-- An action on a record and a database. -/
abbrev Saving (σ : Type) := Session (Record × σ)

namespace Saving

def record : Saving σ Record := fun (r, s) => (.ok r, (r, s))

def change (f : Record → Record) : Saving σ Unit := fun (r, s) => (.ok (), (f r, s))

/-- An action on the i-th record of a relation, if it is there. -/
def onRelated (identifier : String) (i : Nat) (x : Saving σ Unit) : Saving σ Unit := fun (r, s) =>
  match (r.related identifier)[i]? with
  | none => (.ok (), (r, s))
  | some child =>
    let (outcome, (child, s)) := x (child, s)
    (outcome, (r.setRelated identifier i child, s))

/-- An action on each record of a relation in turn. -/
def onEach (identifier : String) (x : Saving σ Unit) : Saving σ Unit := do
  let r ← record
  (List.range (r.related identifier).length).forM fun i => onRelated identifier i x

/-- An action on a record below the one at hand, by the relations that lead there and the places in
them; nothing is done if it is not there. -/
def below : List (String × Nat) → Session (Record × σ) α → Session (Record × σ) (Option α)
  | [], x => x.map some
  | (identifier, i) :: path, x => fun (r, s) =>
    match (r.related identifier)[i]? with
    | none => (.ok none, (r, s))
    | some child =>
      let (outcome, (child, s)) := below path x (child, s)
      (outcome, (r.setRelated identifier i child, s))

end Saving

namespace Record

/-- The loaded version. -/
def version (r : Record) (lock : Column) : Except Error Int64 :=
  match (r.values.find? lock.name).bind Value.asInt? with
  | some v => .ok v
  | none => fail (.versionNotLoaded r.table.name lock.name)

/-- The columns that identify the row of a record, as it was loaded. -/
def guardFields (r : Record) : Except Error (List Field) := do
  if r.key.isNull then fail (.noKeyValue r.table.name)
  else
    let key : Field := ⟨r.table.primaryKey, r.key⟩
    match r.table.lockColumn? with
    | some lock => do
      let v ← r.version lock
      .ok [key, ⟨lock, .int v⟩]
    | none => .ok [key]

/-- The error of a guarded write that met no row. -/
def lost (r : Record) : Error :=
  if r.table.lockColumn?.isSome then .optimisticLock r.table.name r.key.shown
  else .recordNotFound (r.table.name ++ " " ++ r.key.shown)

/-- The columns of a new row. A key that is null is left to the database. -/
def insertFields (r : Record) : List Field :=
  r.table.columns.filterMap fun c =>
    match r.values.find? c.name with
    | some v => if c.primaryKey && v.isNull then none else some ⟨c, v⟩
    | none => none

/-- The changed columns, without key and version. -/
def updateFields (r : Record) : List Field :=
  (r.table.columns.filter fun c => !c.primaryKey && !c.isLock && r.dirty.contains c.name).map
    fun c => ⟨c, (r.values.find? c.name).getD .null⟩

/-- Gives a record without a key one of its own, where its kind of key can be made up. -/
def makeKey (db : Connection σ) : Saving σ Unit := do
  let r ← Saving.record
  let key := r.table.primaryKey
  if r.key.isNull then
    match key.receiver with
    | .uuid => do
      let u ← Session.lift (stateOnSecond db.freshUuid)
      Saving.change (·.assign key.name (.uuid u))
    | .ulid => do
      let u ← Session.lift (stateOnSecond db.freshUlid)
      Saving.change (·.assign key.name (.text (Ulid.encode u)))
    | _ => pure ()

/-- Takes over the key that the database assigned. -/
def takeKey (assigned : Option Value) : Saving σ Unit := do
  let r ← Saving.record
  if r.key.isNull then
    match assigned with
    | some key => Saving.change (·.put r.table.primaryKey.name key)
    | none => throw (.record (.noKeyAssigned r.table.name))

/-- Writes a new row. -/
def insert (db : Connection σ) : Saving σ Unit := do
  makeKey db
  let table := (← Saving.record).table
  match table.lockColumn? with
  | some lock => do
    let v ← Session.lift (stateOnSecond (db.nextVersion none))
    Saving.change (·.put lock.name (.int v))
  | none => pure ()
  let r ← Saving.record
  let assigned ← (db.insert table r.insertFields).onSecond
  takeKey assigned
  Saving.change written

/-- Writes the changed columns of a row. -/
def update (db : Connection σ) : Saving σ Unit := do
  let r ← Saving.record
  let guard ← Session.ofExcept r.guardFields
  let set := r.updateFields
  if set.isEmpty then Saving.change clean
  else
    match r.table.lockColumn? with
    | some lock => do
      let previous ← Session.ofExcept (r.version lock)
      let v ← Session.lift (stateOnSecond (db.nextVersion (some previous)))
      let touched ← (db.execute (.update r.table (set ++ [⟨lock, .int v⟩]) guard)).onSecond
      if touched = 0 then throw r.lost
      Saving.change fun r => (r.put lock.name (.int v)).clean
    | none => do
      let touched ← (db.execute (.update r.table set guard)).onSecond
      if touched = 0 then throw r.lost
      Saving.change clean

/-- Writes the record itself, if there is something to write. -/
def write (db : Connection σ) : Saving σ Unit := do
  let r ← Saving.record
  if r.isNew then insert db
  else if r.isDirty then update db

/-- Saves what the record refers to and takes its key over. A relation that was emptied gives null;
one that was empty already gives nothing. -/
def saveReference (save : Saving σ Unit) (reference : Reference) : Saving σ Unit := do
  let r ← Saving.record
  match r.slots.find? reference.identifier with
  | none => pure ()
  | some slot => do
    match slot.related with
    | .one _ => Saving.onEach reference.identifier save
    | .many _ => pure ()
    let r ← Saving.record
    Saving.change (·.settle reference.identifier)
    let key := match slot.related with
      | .one (some _) => (r.one? reference.identifier).map (·.key)
      | .one none => if slot.modified then some .null else none
      | .many _ => none
    match key with
    | some key => Saving.change (·.relink reference.column key slot.modified)
    | none => pure ()

/-- Saves the records that refer to this one. -/
def saveReverse (save : Saving σ Unit) (key : Value) (reverse : Reverse) : Saving σ Unit := do
  let r ← Saving.record
  match r.slots.find? reverse.identifier with
  | none => pure ()
  | some slot => do
    Saving.onEach reverse.identifier do
      Saving.change (·.relink reverse.column key slot.modified)
      save
    Saving.change (·.settle reverse.identifier)

/-- Saves the records that are linked with this one, and writes the links if they were replaced. -/
def saveManyMany (db : Connection σ) (save : Saving σ Unit) (key : Value) (relation : ManyMany) :
    Saving σ Unit := do
  let r ← Saving.record
  match r.slots.find? relation.identifier with
  | none => pure ()
  | some slot => do
    Saving.onEach relation.identifier save
    if slot.modified then
      let r ← Saving.record
      (db.run (.unlinkAll relation key)).onSecond
      (r.related relation.identifier).forM fun target =>
        (db.run (.link relation key target.key)).onSecond
    Saving.change (·.settle relation.identifier)

/-- Saves a record whose related records are nested less deep than `n`. -/
def saveWithin (db : Connection σ) : Nat → Saving σ Unit
  | 0 => pure ()
  | n + 1 => do
    let save := saveWithin db n
    let table := (← Saving.record).table
    table.references.forM (saveReference save)
    write db
    let key := (← Saving.record).key
    table.reverses.forM (saveReverse save key)
    table.manyManys.forM (saveManyMany db save key)

/-- Saves a record and everything related to it. -/
def save (db : Connection σ) : Saving σ Unit := do
  let r ← Saving.record
  saveWithin db r.depth

/-- Deletes the row of a record. -/
def delete (db : Connection σ) (r : Record) : Session σ Unit := do
  let guard ← Session.ofExcept r.guardFields
  let touched ← db.execute (.delete r.table guard)
  if touched = 0 then throw r.lost

end Record

end RecordGraph
