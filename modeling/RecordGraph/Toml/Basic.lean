import RecordGraph.Number.Width

/-!
# TOML documents

A document is a table of entries, some of which are tables in turn. A table remembers what made it,
for that decides what may still be added to it: a header opens a table once, a dotted key adds only
to tables that dotted keys made, and an inline table is complete.

* `Toml.assign?`: an entry under a dotted key.
* `Toml.open?`: the table of a header.
* `Toml.within?`: a change of the table that a header opened.
-/
namespace RecordGraph

/-- What made a table. -/
inductive TableOrigin where
  | header
  /-- A header of a table inside it. -/
  | innerHeader
  | dottedKey
  | inline
  deriving DecidableEq

/-- A value in a document, as far as settings need: no fractions, no dates, no lists of tables. -/
inductive Toml where
  | text (s : String)
  | integer (i : Int)
  | boolean (b : Bool)
  | array (items : List Toml)
  | table (origin : TableOrigin) (entries : List (String × Toml))

namespace Toml

abbrev Entries := List (String × Toml)

/-- The entries with one of them replaced. -/
def replace (key : String) (v : Toml) (entries : Entries) : Entries :=
  entries.map fun (k, old) => (k, if k == key then v else old)

/-- A value under a dotted key, which is new. -/
def assign? : List String → Toml → Entries → Option Entries
  | [], _, _ => none
  | [key], v, entries =>
    if (entries.lookup key).isSome then none else some (entries ++ [(key, v)])
  | key :: path, v, entries =>
    match entries.lookup key with
    | none => (assign? path v []).map fun inner => entries ++ [(key, .table .dottedKey inner)]
    | some (.table .dottedKey inner) =>
      (assign? path v inner).map fun inner => replace key (.table .dottedKey inner) entries
    | some _ => none

/-- The table of a header, which no header opened before. -/
def open? : List String → Entries → Option Entries
  | [], _ => none
  | [key], entries =>
    match entries.lookup key with
    | none => some (entries ++ [(key, .table .header [])])
    | some (.table .innerHeader inner) => some (replace key (.table .header inner) entries)
    | some _ => none
  | key :: path, entries =>
    match entries.lookup key with
    | none => (open? path []).map fun inner => entries ++ [(key, .table .innerHeader inner)]
    | some (.table .inline _) => none
    | some (.table origin inner) =>
      (open? path inner).map fun inner => replace key (.table origin inner) entries
    | some _ => none

/-- A change of the table at a path. -/
def within? (f : Entries → Option Entries) : List String → Entries → Option Entries
  | [], entries => f entries
  | key :: path, entries =>
    match entries.lookup key with
    | some (.table origin inner) =>
      (within? f path inner).map fun inner => replace key (.table origin inner) entries
    | _ => none

/-- The name of an alternative: a text, or the only key of a table with nothing under it. -/
def choice? : Toml → Option String
  | .text s => some s
  | .table _ [(name, .array [])] => some name
  | .table _ [(name, .table _ [])] => some name
  | _ => none

def text? : Toml → Option String
  | .text s => some s
  | _ => none

def boolean? : Toml → Option Bool
  | .boolean b => some b
  | _ => none

/-- An unsigned number of 64 bits. -/
def unsigned? : Toml → Option UInt64
  | .integer i => if 0 ≤ i then Width.unsigned? i.toNat else none
  | _ => none

end Toml

end RecordGraph
