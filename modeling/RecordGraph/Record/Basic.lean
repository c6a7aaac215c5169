import RecordGraph.Error
import RecordGraph.NameMap
import RecordGraph.Schema.Table

/-!
# Records

A `Record` is a row of a table together with the related records that were loaded or attached. A
relation that leads to at most one row holds at most one record, any other a list; which of the two
it is, the table says (`Record.isPlural?`).

A record knows which of its columns were changed since it was last written, and for each relation
whether it was replaced.
-/
namespace RecordGraph

/-- What a relation leads to. -/
inductive Related (ρ : Type) where
  | one (record : Option ρ)
  | many (records : List ρ)

/-- A relation that is loaded or attached. -/
structure Slot (ρ : Type) where
  related : Related ρ
  /-- Replaced since it was loaded or saved. -/
  modified : Bool

/-- A row with its related rows. -/
structure Record where
  table : Table
  /-- Values by column name; columns that were not loaded are missing. -/
  values : NameMap Value
  /-- The columns changed since the last write. -/
  dirty : NameMap Unit
  /-- Not in the database yet. -/
  isNew : Bool
  slots : NameMap (Slot Record)
  calculations : NameMap Value

namespace Related

/-- The related records in order. -/
def toList : Related ρ → List ρ
  | .one none => []
  | .one (some r) => [r]
  | .many rs => rs

/-- The same relation with the i-th record replaced. -/
def set (i : Nat) (r : ρ) : Related ρ → Related ρ
  | .one none => .one none
  | .one (some old) => .one (some (if i = 0 then r else old))
  | .many rs => .many (rs.set i r)

end Related

namespace Record

/-- A record that is not in the database, with every column unset. -/
def new (table : Table) : Record where
  table := table
  values := .empty
  dirty := .empty
  isNew := true
  slots := .empty
  calculations := .empty

/-- A record as read from the database. -/
def loaded (table : Table) (values calculations : NameMap Value) (slots : NameMap (Slot Record)) :
    Record where
  table := table
  values := values
  dirty := .empty
  isNew := false
  slots := slots
  calculations := calculations

def isDirty (r : Record) : Bool := !r.dirty.isEmpty

/-! ## Columns -/

def fail (fault : RecordFault) : Except Error α := .error (.record fault)

/-- The value of a column by name or identifier, if it is loaded. -/
def get? (r : Record) (key : String) : Option Value :=
  (r.table.column? key).bind fun c => r.values.find? c.name

/-- The key, null while there is none. -/
def key (r : Record) : Value := (r.values.find? r.table.primaryKey.name).getD .null

/-- The record with a value put into a column, as it is in the database. -/
def put (r : Record) (name : String) (v : Value) : Record :=
  { r with values := r.values.insert name v }

/-- The column holds this value already. -/
def holds (r : Record) (name : String) (v : Value) : Bool :=
  match r.values.find? name with
  | some old => old.same v
  | none => false

/-- The record with a column changed; a value that is there already is no change. -/
def assign (r : Record) (name : String) (v : Value) : Record :=
  if r.holds name v then r
  else { r with values := r.values.insert name v, dirty := r.dirty.insert name () }

/-- Sets a column. Versions are kept by saving, and the key of a saved record is settled. -/
def set (r : Record) (key : String) (v : Value) : Except Error Record :=
  match r.table.column? key with
  | none => fail (.unknownColumn r.table.name key)
  | some c =>
    if c.isLock then fail (.lockColumn r.table.name c.name)
    else if c.primaryKey && !r.isNew && !r.key.same v then fail (.keyChange r.table.name)
    else .ok (r.assign c.name v)

/-- Points a foreign key at a row. On a saved record a foreign key that was not loaded stays so,
unless the relation was replaced. -/
def relink (r : Record) (column : String) (key : Value) (modified : Bool) : Record :=
  if modified || r.isNew || r.values.contains column then r.assign column key else r

/-- The record as it is after a write. -/
def written (r : Record) : Record := { r with isNew := false, dirty := .empty }

/-- The record with its changes taken as written. -/
def clean (r : Record) : Record := { r with dirty := .empty }

/-! ## Relations -/

/-- A relation leads to a list of records. -/
def isPlural? (r : Record) (identifier : String) : Except Error Bool :=
  if (r.table.reference? identifier).isSome then .ok false
  else match r.table.reverse? identifier with
    | some reverse => .ok (!reverse.unique)
    | none =>
      if (r.table.manyMany? identifier).isSome then .ok true
      else fail (.unknownRelation r.table.name identifier)

def isLoaded (r : Record) (identifier : String) : Bool := r.slots.contains identifier

/-- What a relation leads to, if it is loaded. -/
def relation? (r : Record) (identifier : String) : Option (Related Record) :=
  (r.slots.find? identifier).map fun s => s.related

/-- The record of a relation to one row. -/
def one? (r : Record) (identifier : String) : Option Record :=
  match r.relation? identifier with
  | some (.one record) => record
  | _ => none

/-- The records of a relation to many rows. -/
def many? (r : Record) (identifier : String) : Option (List Record) :=
  match r.relation? identifier with
  | some (.many records) => some records
  | _ => none

def many (r : Record) (identifier : String) : List Record := (r.many? identifier).getD []

/-- The records of a relation, one or many. -/
def related (r : Record) (identifier : String) : List Record :=
  ((r.relation? identifier).map Related.toList).getD []

/-- A new record with some columns set. -/
def withFields (table : Table) (fields : List (String × Value)) : Except Error Record :=
  fields.foldlM (fun r (key, v) => r.set key v) (new table)

/-- The record with the i-th record of a relation changed. -/
def setRelated (r : Record) (identifier : String) (i : Nat) (child : Record) : Record :=
  { r with slots := r.slots.modify identifier fun s => { s with related := s.related.set i child } }

/-- The record with a relation that no longer counts as replaced. -/
def settle (r : Record) (identifier : String) : Record :=
  { r with slots := r.slots.modify identifier fun s => { s with modified := false } }

def replace (r : Record) (identifier : String) (related : Related Record) : Record :=
  { r with slots := r.slots.insert identifier ⟨related, true⟩ }

/-- Replaces a relation to one row; saving writes the foreign key. -/
def setOne (r : Record) (identifier : String) (record : Option Record) : Except Error Record := do
  if ← r.isPlural? identifier then fail (.toMany r.table.name identifier)
  else .ok (r.replace identifier (.one record))

/-- Replaces a relation to many rows; saving rewrites the links of many-to-many relations. -/
def setMany (r : Record) (identifier : String) (records : List Record) : Except Error Record := do
  if ← r.isPlural? identifier then .ok (r.replace identifier (.many records))
  else fail (.toOne r.table.name identifier)

/-- Appends to a relation to many rows. -/
def push (r : Record) (identifier : String) (record : Record) : Except Error Record := do
  if ← r.isPlural? identifier then
    match r.relation? identifier with
    | some (.one old) => .ok (r.replace identifier (.one old))
    | some (.many old) => .ok (r.replace identifier (.many (old ++ [record])))
    | none => .ok (r.replace identifier (.many [record]))
  else fail (.toOne r.table.name identifier)

/-! ## Depth and equality -/

mutual

/-- How deep related records are nested. -/
def depth : Record → Nat
  | ⟨_, _, _, _, ⟨slots⟩, _⟩ => slotsDepth slots + 1

def slotsDepth : List (String × Slot Record) → Nat
  | [] => 0
  | (_, ⟨.one none, _⟩) :: rest => slotsDepth rest
  | (_, ⟨.one (some r), _⟩) :: rest => max r.depth (slotsDepth rest)
  | (_, ⟨.many rs, _⟩) :: rest => max (listDepth rs) (slotsDepth rest)

def listDepth : List Record → Nat
  | [] => 0
  | r :: rest => max r.depth (listDepth rest)

end

/-- Maps with the same names and the same values. -/
def sameValues (a b : NameMap Value) : Bool :=
  a.entries.length == b.entries.length
    && (a.entries.zip b.entries).all fun (x, y) => x.1 == y.1 && x.2.same y.2

mutual

/-- Equality of records with all that they hold; floats compare as numbers. -/
def same : Record → Record → Bool
  | ⟨t, v, d, n, ⟨s⟩, c⟩, ⟨t', v', d', n', ⟨s'⟩, c'⟩ =>
    t == t' && sameValues v v' && d == d' && n == n' && sameSlots s s' && sameValues c c'

def sameSlots : List (String × Slot Record) → List (String × Slot Record) → Bool
  | [], [] => true
  | (n, ⟨.one a, m⟩) :: rest, (n', ⟨.one b, m'⟩) :: rest' =>
    n == n' && m == m' && sameOptions a b && sameSlots rest rest'
  | (n, ⟨.many as, m⟩) :: rest, (n', ⟨.many bs, m'⟩) :: rest' =>
    n == n' && m == m' && sameLists as bs && sameSlots rest rest'
  | _, _ => false

def sameOptions : Option Record → Option Record → Bool
  | none, none => true
  | some a, some b => a.same b
  | _, _ => false

def sameLists : List Record → List Record → Bool
  | [], [] => true
  | a :: as, b :: bs => a.same b && sameLists as bs
  | _, _ => false

end

end Record

end RecordGraph
