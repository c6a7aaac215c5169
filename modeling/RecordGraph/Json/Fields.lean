import RecordGraph.Json.Number

/-!
# Structured content read from documents

Readers of records with named fields, of lists and of alternatives. A record is an object, whose
unknown fields are ignored and whose known ones stand at most once, or an array of its fields in
order. An alternative is its name, or an object with the name as its only key.

Readers carry how many levels of nesting they may still open. What is ignored may nest freely.
-/
namespace RecordGraph.Json

/-- Levels that a document may open. -/
def depthLimit : Nat := 128

/-- One level less; the last one cannot be opened. -/
def enter? (depth : Nat) : Option Nat := if depth ≤ 1 then none else some (depth - 1)

/-- A reader of content at a level of nesting. -/
abbrev Reader (α : Type) := Nat → Json → Option α

/-- The fields found in a record, in the order of their names. -/
structure Fields where
  found : List (String × Json)
  /-- Fields were given by position: an optional one cannot be left out. -/
  positional : Bool
  depth : Nat

/-- The entries with known names, or none if a name is no text or one of them comes twice. -/
def knownEntries? (names : List String) :
    List (List Char × Json) → List (String × Json) → Option (List (String × Json))
  | [], found => some found
  | (key, value) :: rest, found => do
    let name ← spelled? key
    if !names.contains name then knownEntries? names rest found
    else if found.any (·.1 == name) then none
    else knownEntries? names rest (found ++ [(name, value)])

/-- The fields of a record. -/
def fields? (names : List String) : Reader Fields := fun depth j =>
  match j with
  | .object entries => do
    let depth ← enter? depth
    let found ← knownEntries? names entries []
    some ⟨found, false, depth⟩
  | .array items => do
    let depth ← enter? depth
    if names.length < items.length then none else some ⟨names.zip items, true, depth⟩
  | _ => none

namespace Fields

def get? (f : Fields) (name : String) : Option Json := (f.found.find? (·.1 == name)).map (·.2)

/-- A field that has to be there. -/
def required (f : Fields) (name : String) (read : Reader α) : Option α := do
  let j ← f.get? name
  read f.depth j

/-- A field that may be null, and may be left out of an object. -/
def nullable (f : Fields) (name : String) (read : Reader α) : Option (Option α) :=
  match f.get? name with
  | none => if f.positional then none else some none
  | some .null => some none
  | some j => (read f.depth j).map some

/-- A field with a value where it is left out. -/
def withDefault (f : Fields) (name : String) (default : α) (read : Reader α) : Option α :=
  match f.get? name with
  | none => some default
  | some j => read f.depth j

/-- A field that may be null or left out. -/
def nullableWithDefault (f : Fields) (name : String) (read : Reader α) : Option (Option α) :=
  match f.get? name with
  | none => some none
  | some .null => some none
  | some j => (read f.depth j).map some

end Fields

def readText : Reader String := fun _ j => j.text?

def readBool : Reader Bool := fun _ j => j.bool?

def readUInt64 : Reader UInt64 := fun _ j => j.uint64?

/-- Every item of an array. -/
def readList (read : Reader α) : Reader (List α) := fun depth j =>
  match j with
  | .array items => do
    let depth ← enter? depth
    items.mapM (read depth)
  | _ => none

/-- The chosen alternative, its content if it has some, and the level of the content. -/
def variant? (depth : Nat) : Json → Option (String × Option Json × Nat)
  | .string written => do
    let name ← spelled? written
    some (name, none, depth)
  | .object [(key, content)] => do
    let depth ← enter? depth
    let name ← spelled? key
    some (name, some content, depth)
  | _ => none

/-- An alternative without content, by its name. -/
def readName (ofName? : String → Option α) : Reader α := fun depth j => do
  let (name, content, _) ← variant? depth j
  match content with
  | none | some .null => ofName? name
  | _ => none

end RecordGraph.Json
