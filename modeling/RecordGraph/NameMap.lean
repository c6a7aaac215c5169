/-!
# Maps from names

A `NameMap` keeps its entries in the order of their names, each name once.

* `find?_insert_self`, `find?_insert_of_ne`: what an insertion does to the entries.
-/
namespace RecordGraph

/-- A finite map from names. -/
structure NameMap (α : Type) where
  entries : List (String × α)
  deriving DecidableEq, Repr

namespace NameMap

def empty : NameMap α := ⟨[]⟩

instance : Inhabited (NameMap α) := ⟨empty⟩

/-- Entries with one added, or replaced, in its place. -/
def insertEntry (name : String) (value : α) : List (String × α) → List (String × α)
  | [] => [(name, value)]
  | (n, v) :: rest =>
    if name = n then (name, value) :: rest
    else if name < n then (name, value) :: (n, v) :: rest
    else (n, v) :: insertEntry name value rest

/-- The map with one entry added or replaced. -/
def insert (m : NameMap α) (name : String) (value : α) : NameMap α :=
  ⟨insertEntry name value m.entries⟩

/-- The map of entries; of two with one name, the later counts. -/
def ofList (entries : List (String × α)) : NameMap α :=
  entries.foldl (fun m e => m.insert e.1 e.2) empty

def find? (m : NameMap α) (name : String) : Option α := m.entries.lookup name

def contains (m : NameMap α) (name : String) : Bool := (m.find? name).isSome

def isEmpty (m : NameMap α) : Bool := m.entries.isEmpty

/-- The map with an entry changed, if it is there. -/
def modify (m : NameMap α) (name : String) (f : α → α) : NameMap α :=
  ⟨m.entries.map fun (n, v) => (n, if n == name then f v else v)⟩

/-- The map without an entry. -/
def erase (m : NameMap α) (name : String) : NameMap α := ⟨m.entries.filter (·.1 != name)⟩

theorem lookup_insertEntry_self (name : String) (value : α) (entries : List (String × α)) :
    (insertEntry name value entries).lookup name = some value := by
  induction entries with
  | nil => simp [insertEntry]
  | cons e rest ih =>
    obtain ⟨n, v⟩ := e
    by_cases h : name = n
    · simp [insertEntry, h]
    · by_cases hlt : name < n
      · simp [insertEntry, h, hlt]
      · have hn : (name == n) = false := by simpa using h
        simp only [insertEntry, h, hlt, if_false, List.lookup_cons, hn]
        exact ih

theorem lookup_insertEntry_of_ne {name other : String} (value : α) (h : other ≠ name)
    (entries : List (String × α)) :
    (insertEntry name value entries).lookup other = entries.lookup other := by
  have hne : (other == name) = false := by simpa using h
  induction entries with
  | nil => simp [insertEntry, List.lookup_cons, hne]
  | cons e rest ih =>
    obtain ⟨n, v⟩ := e
    by_cases hn : name = n
    · subst hn
      simp [insertEntry, List.lookup_cons, hne]
    · by_cases hlt : name < n
      · simp [insertEntry, hn, hlt, List.lookup_cons, hne]
      · simp [insertEntry, hn, hlt, List.lookup_cons, ih]

@[simp] theorem find?_insert_self (m : NameMap α) (name : String) (value : α) :
    (m.insert name value).find? name = some value := lookup_insertEntry_self ..

theorem find?_insert_of_ne {name other : String} (m : NameMap α) (value : α) (h : other ≠ name) :
    (m.insert name value).find? other = m.find? other := lookup_insertEntry_of_ne value h _

end NameMap

end RecordGraph
