import RecordGraph.Number.Decimal
import RecordGraph.Number.Literal
import RecordGraph.Text.Hex

/-!
# JSON documents

A `Json` keeps strings and numbers as they are written, so that what a number or an escape means is
decided by whoever reads it. `Json.render` writes a document without blanks.

* `Json.ofText`, `Json.text?`: texts and their escaped forms. A lone surrogate spells no text.
* `Json.ofInt`, `Json.ofFloat`: numbers.
-/
namespace RecordGraph

/-- A JSON document. -/
inductive Json where
  | null
  | bool (b : Bool)
  /-- A number, as written. -/
  | number (written : List Char)
  /-- A string, as written between its quotes. -/
  | string (written : List Char)
  | array (items : List Json)
  /-- Entries in order, keys as written between their quotes. -/
  | object (entries : List (List Char × Json))
  deriving Inhabited

namespace Json

/-- The escaped form of one character: quotes, backslashes and ASCII control characters only. -/
def escapeChar (c : Char) : List Char :=
  match c with
  | '"' => ['\\', '"']
  | '\\' => ['\\', '\\']
  | '\n' => ['\\', 'n']
  | '\r' => ['\\', 'r']
  | '\t' => ['\\', 't']
  | '\x08' => ['\\', 'b']
  | '\x0c' => ['\\', 'f']
  | c =>
    if c.toNat < 0x20 then
      '\\' :: 'u' :: '0' :: '0' :: Hex.ofByte (UInt8.ofNat c.toNat)
    else [c]

def escape (s : String) : List Char := s.toList.flatMap escapeChar

/-- The number that four hexadecimal digits spell, and the rest. -/
def hexQuad? : List Char → Option (Nat × List Char)
  | a :: b :: c :: d :: rest => do
    let a ← Hex.value? a
    let b ← Hex.value? b
    let c ← Hex.value? c
    let d ← Hex.value? d
    some (((a * 16 + b) * 16 + c) * 16 + d, rest)
  | _ => none

/-- The character of a single letter escape. -/
def letterEscape? : Char → Option Char
  | '"' => some '"'
  | '\\' => some '\\'
  | '/' => some '/'
  | 'b' => some '\x08'
  | 'f' => some '\x0c'
  | 'n' => some '\n'
  | 'r' => some '\r'
  | 't' => some '\t'
  | _ => none

/-- The characters of an escaped text. Surrogates count in pairs only. -/
def unescape? (cs : List Char) : Option (List Char) :=
  match cs with
  | [] => some []
  | '\\' :: 'u' :: a :: b :: c :: d :: rest => do
    let (high, _) ← hexQuad? [a, b, c, d]
    if 0xd800 ≤ high ∧ high < 0xdc00 then
      match rest with
      | '\\' :: 'u' :: e :: f :: g :: h :: rest => do
        let (low, _) ← hexQuad? [e, f, g, h]
        if 0xdc00 ≤ low ∧ low < 0xe000 then
          let code := 0x10000 + (high - 0xd800) * 0x400 + (low - 0xdc00)
          (unescape? rest).map (Char.ofNat code :: ·)
        else none
      | _ => none
    else if 0xdc00 ≤ high ∧ high < 0xe000 then none
    else (unescape? rest).map (Char.ofNat high :: ·)
  | '\\' :: c :: rest => do
    let c ← letterEscape? c
    (unescape? rest).map (c :: ·)
  | c :: rest => (unescape? rest).map (c :: ·)

def ofText (s : String) : Json := .string (escape s)

/-- The text that a written string spells. -/
def spelled? (written : List Char) : Option String := (unescape? written).map String.ofList

def text? : Json → Option String
  | .string written => spelled? written
  | _ => none

def ofInt (i : Int) : Json := .number (toString i).toList

def ofNat (n : Nat) : Json := .number (toString n).toList

/-- A finite double; JSON has null for the others. -/
def ofFloat (x : Binary64) : Json :=
  if x.isFinite then .number (FloatLayout.json.render x).toList else .null

/-- An object with the given keys, in their order. -/
def ofEntries (entries : List (String × Json)) : Json :=
  .object (entries.map fun (k, v) => (escape k, v))

/-- A list of optional content: null where there is none. -/
def ofOption (f : α → Json) : Option α → Json
  | none => .null
  | some a => f a

/-- Items with commas between them. -/
def separated : List (List Char) → List Char
  | [] => []
  | [x] => x
  | x :: rest => x ++ ',' :: separated rest

mutual

/-- The characters of a document. -/
def chars : Json → List Char
  | .null => ['n', 'u', 'l', 'l']
  | .bool true => ['t', 'r', 'u', 'e']
  | .bool false => ['f', 'a', 'l', 's', 'e']
  | .number written => written
  | .string written => '"' :: written ++ ['"']
  | .array items => '[' :: separated (itemChars items) ++ [']']
  | .object entries => '\x7b' :: separated (entryChars entries) ++ ['\x7d']

/-- The characters of each item. -/
def itemChars : List Json → List (List Char)
  | [] => []
  | item :: rest => chars item :: itemChars rest

/-- The characters of each entry. -/
def entryChars : List (List Char × Json) → List (List Char)
  | [] => []
  | (key, value) :: rest => ('"' :: key ++ '"' :: ':' :: chars value) :: entryChars rest

end

/-- The text of a document, without blanks. -/
def render (j : Json) : String := String.ofList j.chars

end Json

end RecordGraph
