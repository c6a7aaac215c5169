import RecordGraph.Toml.Basic
import RecordGraph.Toml.Text

/-!
# TOML documents read from text

`Toml.parse?` reads a document: entries and headers of tables, one on a line. Fractions, dates and
lists of tables are refused like anything malformed, for no setting takes them.
-/
namespace RecordGraph.Toml

/-- A truth value or an integer. -/
def ofWord? (word : List Char) : Option Toml :=
  if word = "true".toList then some (.boolean true)
  else if word = "false".toList then some (.boolean false)
  else (integer? word).map .integer

mutual

/-- A value at the start of a text, and the rest; every step consumes fuel and a character. -/
def scanValue : Nat → List Char → Option (Toml × List Char)
  | 0, _ => none
  | fuel + 1, cs =>
    match cs with
    | '[' :: rest => (scanItems fuel rest).map fun (items, rest) => (.array items, rest)
    | '\x7b' :: rest =>
      (scanEntries fuel rest).map fun (entries, rest) => (.table .inline entries, rest)
    | '"' :: _ => (scanString cs).map fun (s, rest) => (.text s, rest)
    | '\x27' :: _ => (scanString cs).map fun (s, rest) => (.text s, rest)
    | _ => do
      let v ← ofWord? (cs.takeWhile isWordChar)
      some (v, cs.dropWhile isWordChar)

/-- The items up to the end of an array; a comma may stand behind the last one. -/
def scanItems : Nat → List Char → Option (List Toml × List Char)
  | 0, _ => none
  | fuel + 1, cs =>
    match skipLines cs.length cs with
    | ']' :: rest => some ([], rest)
    | cs => do
      let (item, rest) ← scanValue fuel cs
      match skipLines rest.length rest with
      | ',' :: rest => (scanItems fuel rest).map fun (items, rest) => (item :: items, rest)
      | ']' :: rest => some ([item], rest)
      | _ => none

/-- A dotted key and its value. What may stand around the equals sign is skipped by `skip`. -/
def scanEntry (skip : List Char → List Char) :
    Nat → List Char → Option ((List String × Toml) × List Char)
  | 0, _ => none
  | fuel + 1, cs => do
    let (path, rest) ← scanPath (cs.length + 1) cs
    match skip rest with
    | '=' :: rest => do
      let (v, rest) ← scanValue fuel (skip rest)
      some ((path, v), rest)
    | _ => none

/-- The entries up to the end of an inline table, with those that were read before. Lines may break
everywhere but within a dotted key. -/
def scanEntriesAfter : Nat → Entries → List Char → Option (Entries × List Char)
  | 0, _, _ => none
  | fuel + 1, done, cs =>
    match skipLines cs.length cs with
    | '\x7d' :: rest => some (done, rest)
    | cs => do
      let ((path, v), rest) ← scanEntry (skipLines cs.length) fuel cs
      let done ← assign? path v done
      match skipLines rest.length rest with
      | ',' :: rest => scanEntriesAfter fuel done rest
      | '\x7d' :: rest => some (done, rest)
      | _ => none

def scanEntries : Nat → List Char → Option (Entries × List Char)
  | 0, _ => none
  | fuel + 1, cs => scanEntriesAfter fuel [] cs

end

/-- The rest of a document, where entries go into the table at `current`. -/
def scanDocument : Nat → List String → Entries → List Char → Option Entries
  | 0, _, _, _ => none
  | fuel + 1, current, entries, cs =>
    match skipLines cs.length cs with
    | [] => some entries
    | '[' :: rest => do
      let (path, rest) ← scanPath (rest.length + 1) rest
      match rest with
      | ']' :: rest => do
        let entries ← open? path entries
        let rest ← endLine? rest
        scanDocument fuel path entries rest
      | _ => none
    | cs => do
      let ((path, v), rest) ← scanEntry skipSpace (2 * cs.length + 2) cs
      let entries ← within? (assign? path v) current entries
      let rest ← endLine? rest
      scanDocument fuel current entries rest

/-- The document that a text consists of. A byte order mark in front does not count. -/
def parse? (s : String) : Option Entries :=
  let cs := match s.toList with
    | '\ufeff' :: rest => rest
    | cs => cs
  scanDocument (cs.length + 1) [] [] cs

end RecordGraph.Toml
