import RecordGraph.Json.Basic
import RecordGraph.Record.Basic

/-!
# Records as documents

A record becomes an object of its loaded columns by identifier, its calculations and its loaded
relations, with the keys in order. Of two entries with one key the relation counts before the
calculation, and the calculation before the column.
-/
namespace RecordGraph

/-- A value as a document: bytes as a list of numbers, times and identifiers as texts. -/
def Value.toJson : Value → Json
  | .null => .null
  | .bool b => .bool b
  | .int i => .ofInt i.toInt
  | .uint u => .ofNat u.toNat
  | .float x => .ofFloat x
  | .text s => .ofText s
  | .bytes b => .array (b.map fun x => .ofNat x.toNat)
  | .time t => .ofText t.stored
  | .uuid u => .ofText u.text

namespace Record

/-- The loaded columns by identifier. -/
def columnEntries (columns : List Column) (values : NameMap Value) : List (String × Json) :=
  columns.filterMap fun c => (values.find? c.name).map fun v => (c.identifier, v.toJson)

mutual

/-- A record with everything that it holds. -/
def toJson : Record → Json
  | ⟨table, values, _, _, ⟨slots⟩, calculations⟩ =>
    let entries := columnEntries table.columns values
      ++ calculations.entries.map (fun (name, v) => (name, v.toJson)) ++ slotEntries slots
    Json.ofEntries (NameMap.ofList entries).entries

def slotEntries : List (String × Slot Record) → List (String × Json)
  | [] => []
  | (name, ⟨.one none, _⟩) :: rest => (name, .null) :: slotEntries rest
  | (name, ⟨.one (some r), _⟩) :: rest => (name, r.toJson) :: slotEntries rest
  | (name, ⟨.many rs, _⟩) :: rest => (name, .array (listToJson rs)) :: slotEntries rest

def listToJson : List Record → List Json
  | [] => []
  | r :: rest => r.toJson :: listToJson rest

end

end Record

end RecordGraph
