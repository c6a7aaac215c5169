import RecordGraph.Number.Literal
import RecordGraph.Text.Hex

/-!
# Words of TOML

The smallest parts of a document: blanks, comments, strings in their four forms, keys and integers.
Every reader takes the text from where it stands and gives what it read and the rest.
-/
namespace RecordGraph.Toml

def isSpace (c : Char) : Bool := c == ' ' || c == '\t'

def skipSpace (cs : List Char) : List Char := cs.dropWhile isSpace

/-- A character that may stand on a line as it is. -/
def isPlain (c : Char) : Bool := c == '\t' || (0x20 ≤ c.toNat && c.toNat != 0x7f)

/-- What follows a line break. -/
def lineBreak? : List Char → Option (List Char)
  | '\n' :: rest => some rest
  | '\r' :: '\n' :: rest => some rest
  | _ => none

/-- What follows the end of a line, on which only blanks and a comment are left. -/
def endLine? (cs : List Char) : Option (List Char) :=
  let rest := match skipSpace cs with
    | '#' :: comment => comment.dropWhile isPlain
    | rest => rest
  if rest.isEmpty then some [] else lineBreak? rest

/-- What follows blanks, comments and line breaks; every round consumes fuel. -/
def skipLines : Nat → List Char → List Char
  | 0, cs => cs
  | fuel + 1, cs =>
    match skipSpace cs with
    | '#' :: comment => skipLines fuel (comment.dropWhile isPlain)
    | rest => match lineBreak? rest with
      | some rest => skipLines fuel rest
      | none => rest

/-- The character that a single letter stands for behind a backslash. -/
def letterEscape? : Char → Option Char
  | 'b' => some '\x08'
  | 't' => some '\t'
  | 'n' => some '\n'
  | 'f' => some '\x0c'
  | 'r' => some '\r'
  | 'e' => some '\x1b'
  | '"' => some '"'
  | '\\' => some '\\'
  | _ => none

/-- A character by its number in hexadecimal digits. -/
def scanNumbered (count : Nat) (cs : List Char) : Option (Char × List Char) := do
  let digits ← (cs.take count).mapM Hex.value?
  let code := digits.foldl (fun n d => n * 16 + d) 0
  if digits.length = count ∧ code.isValidChar then some (Char.ofNat code, cs.drop count) else none

/-- What an escape stands for, from behind its backslash. -/
def scanEscape : List Char → Option (Char × List Char)
  | [] => none
  | 'x' :: rest => scanNumbered 2 rest
  | 'u' :: rest => scanNumbered 4 rest
  | 'U' :: rest => scanNumbered 8 rest
  | c :: rest => (letterEscape? c).map (·, rest)

/-- A string up to its closing quote. -/
def scanBasic : Nat → List Char → Option (List Char × List Char)
  | 0, _ => none
  | _ + 1, [] => none
  | _ + 1, '"' :: rest => some ([], rest)
  | fuel + 1, '\\' :: rest => do
    let (c, rest) ← scanEscape rest
    let (s, rest) ← scanBasic fuel rest
    some (c :: s, rest)
  | fuel + 1, c :: rest =>
    if isPlain c then (scanBasic fuel rest).map fun (s, rest) => (c :: s, rest) else none

/-- A string without escapes up to its closing quote. -/
def scanLiteral (cs : List Char) : Option (List Char × List Char) :=
  let inside := fun c => isPlain c && c != '\x27'
  match cs.dropWhile inside with
  | '\x27' :: rest => some (cs.takeWhile inside, rest)
  | _ => none

/-- Quotes within or at the end of a string of many lines: the last three of them end it, and no
more than two stand before those. -/
def quotes (quote : Char) (cs : List Char) : Nat × List Char :=
  ((cs.takeWhile (· == quote)).length, cs.dropWhile (· == quote))

/-- What follows blanks and line breaks. -/
def skipBlanks : List Char → List Char
  | '\n' :: rest => skipBlanks rest
  | '\r' :: '\n' :: rest => skipBlanks rest
  | c :: rest => if isSpace c then skipBlanks rest else c :: rest
  | [] => []

/-- A string of many lines up to its closing quotes. Its line breaks stay as they are, but a line
break behind a backslash goes, with all blanks and line breaks after it. -/
def scanLines (quote : Char) (escapes : Bool) : Nat → List Char → Option (List Char × List Char)
  | 0, _ => none
  | _ + 1, [] => none
  | fuel + 1, c :: rest =>
    if c = quote then
      let (n, after) := quotes quote (c :: rest)
      if n < 3 then
        (scanLines quote escapes fuel after).map fun (s, rest) =>
          (List.replicate n quote ++ s, rest)
      else if n ≤ 5 then some (List.replicate (n - 3) quote, after)
      else none
    else if c = '\\' ∧ escapes then
      match lineBreak? (skipSpace rest) with
      | some next => scanLines quote escapes fuel (skipBlanks next)
      | none => do
        let (c, rest) ← scanEscape rest
        let (s, rest) ← scanLines quote escapes fuel rest
        some (c :: s, rest)
    else if isPlain c ∨ (lineBreak? (c :: rest)).isSome then
      (scanLines quote escapes fuel rest).map fun (s, rest) => (c :: s, rest)
    else none

/-- A line break right behind the opening quotes does not count. -/
def scanManyLines (quote : Char) (escapes : Bool) (cs : List Char) :
    Option (List Char × List Char) :=
  scanLines quote escapes (cs.length + 1) ((lineBreak? cs).getD cs)

/-- A string in any of its forms. -/
def scanString (cs : List Char) : Option (String × List Char) :=
  let read := match cs with
    | '"' :: '"' :: '"' :: rest => scanManyLines '"' true rest
    | '"' :: rest => scanBasic (rest.length + 1) rest
    | '\x27' :: '\x27' :: '\x27' :: rest => scanManyLines '\x27' false rest
    | '\x27' :: rest => scanLiteral rest
    | _ => none
  read.map fun (s, rest) => (String.ofList s, rest)

def isBare (c : Char) : Bool := c.isAlphanum || c == '_' || c == '-'

/-- A key: a bare word, or a string on one line. -/
def scanKey (cs : List Char) : Option (String × List Char) :=
  match cs with
  | '"' :: rest => (scanBasic (rest.length + 1) rest).map fun (s, rest) => (String.ofList s, rest)
  | '\x27' :: rest => (scanLiteral rest).map fun (s, rest) => (String.ofList s, rest)
  | _ =>
    let word := cs.takeWhile isBare
    if word.isEmpty then none else some (String.ofList word, cs.dropWhile isBare)

/-- Keys with points between them. -/
def scanPath : Nat → List Char → Option (List String × List Char)
  | 0, _ => none
  | fuel + 1, cs => do
    let (key, rest) ← scanKey (skipSpace cs)
    match skipSpace rest with
    | '.' :: rest => (scanPath fuel rest).map fun (path, rest) => (key :: path, rest)
    | rest => some ([key], rest)

/-- Digits without the underscores between them. -/
def ungrouped? : List Char → Option (List Char)
  | [] => none
  | '_' :: _ => none
  | [c] => some [c]
  | c :: '_' :: rest => (ungrouped? rest).map (c :: ·)
  | c :: rest => (ungrouped? rest).map (c :: ·)

/-- The number that digits spell in a base. -/
def natural? (base : Nat) (cs : List Char) : Option Nat := do
  let cs ← ungrouped? cs
  let digits ← cs.mapM Hex.value?
  if digits.all (· < base) then some (digits.foldl (fun n d => n * base + d) 0) else none

/-- A decimal integer has no needless zero in front. -/
def decimal? (cs : List Char) : Option Nat :=
  match cs with
  | '0' :: _ :: _ => none
  | _ => natural? 10 cs

/-- An integer in one of four bases; only a decimal one takes a sign. -/
def integer? : List Char → Option Int
  | '0' :: 'x' :: cs => (natural? 16 cs).map Int.ofNat
  | '0' :: 'o' :: cs => (natural? 8 cs).map Int.ofNat
  | '0' :: 'b' :: cs => (natural? 2 cs).map Int.ofNat
  | '-' :: cs => (decimal? cs).map fun n => -(n : Int)
  | '+' :: cs => (decimal? cs).map Int.ofNat
  | cs => (decimal? cs).map Int.ofNat

/-- A character of a word that is no string. -/
def isWordChar (c : Char) : Bool := isBare c || c == '+' || c == '.' || c == ':'

end RecordGraph.Toml
