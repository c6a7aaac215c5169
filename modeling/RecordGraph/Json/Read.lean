import RecordGraph.Json.Basic

/-!
# Documents read from text

`Json.parse?` reads one document, with blanks allowed around every part of it, and nothing after
it. Strings and numbers are checked for their form only.
-/
namespace RecordGraph.Json

def isSpace (c : Char) : Bool := c == ' ' || c == '\n' || c == '\t' || c == '\r'

def skip (cs : List Char) : List Char := cs.dropWhile isSpace

/-- The end of a string: what stands before the closing quote, and what follows it. -/
def scanString : List Char → Option (List Char × List Char)
  | [] => none
  | '"' :: rest => some ([], rest)
  | '\\' :: 'u' :: rest => do
    let (_, _) ← hexQuad? rest
    match rest with
    | a :: b :: c :: d :: rest => do
      let (s, rest) ← scanString rest
      some ('\\' :: 'u' :: a :: b :: c :: d :: s, rest)
    | _ => none
  | '\\' :: c :: rest => do
    let _ ← letterEscape? c
    let (s, rest) ← scanString rest
    some ('\\' :: c :: s, rest)
  | c :: rest =>
    if c.toNat < 0x20 ∨ c = '\\' then none
    else (scanString rest).map fun (s, rest) => (c :: s, rest)

/-- A nonempty run of digits. -/
def scanDigits (cs : List Char) : Option (List Char × List Char) :=
  let digits := cs.takeWhile Literal.isDigit
  if digits = [] then none else some (digits, cs.dropWhile Literal.isDigit)

/-- Digits without a needless leading zero. -/
def scanWhole : List Char → Option (List Char × List Char)
  | '0' :: rest =>
    if (rest.head?.map Literal.isDigit).getD false then none else some (['0'], rest)
  | cs => scanDigits cs

def scanFraction : List Char → Option (List Char × List Char)
  | '.' :: rest => (scanDigits rest).map fun (d, rest) => ('.' :: d, rest)
  | cs => some ([], cs)

def scanExponent : List Char → Option (List Char × List Char)
  | c :: rest =>
    if c = 'e' ∨ c = 'E' then
      match rest with
      | '+' :: rest => (scanDigits rest).map fun (d, rest) => (c :: '+' :: d, rest)
      | '-' :: rest => (scanDigits rest).map fun (d, rest) => (c :: '-' :: d, rest)
      | rest => (scanDigits rest).map fun (d, rest) => (c :: d, rest)
    else some ([], c :: rest)
  | [] => some ([], [])

/-- A number: sign, digits, fraction and exponent. -/
def scanNumber (cs : List Char) : Option (List Char × List Char) := do
  let (sign, cs) := match cs with
    | '-' :: rest => (['-'], rest)
    | cs => ([], cs)
  let (whole, cs) ← scanWhole cs
  let (fraction, cs) ← scanFraction cs
  let (exponent, cs) ← scanExponent cs
  some (sign ++ whole ++ fraction ++ exponent, cs)

/-- What follows a word, if the text begins with it. -/
def scanWord (word cs : List Char) : Option (List Char) :=
  if cs.take word.length = word then some (cs.drop word.length) else none

mutual

/-- A document at the start of a text, and the rest; every step consumes fuel and a character. -/
def scan : Nat → List Char → Option (Json × List Char)
  | 0, _ => none
  | fuel + 1, cs =>
    match skip cs with
    | 'n' :: rest => (scanWord "ull".toList rest).map (Json.null, ·)
    | 't' :: rest => (scanWord "rue".toList rest).map (Json.bool true, ·)
    | 'f' :: rest => (scanWord "alse".toList rest).map (Json.bool false, ·)
    | '"' :: rest => (scanString rest).map fun (s, rest) => (.string s, rest)
    | '[' :: rest =>
      match skip rest with
      | ']' :: rest => some (.array [], rest)
      | rest => (scanItems fuel rest).map fun (items, rest) => (.array items, rest)
    | '\x7b' :: rest =>
      match skip rest with
      | '\x7d' :: rest => some (.object [], rest)
      | rest => (scanEntries fuel rest).map fun (entries, rest) => (.object entries, rest)
    | rest => (scanNumber rest).map fun (n, rest) => (.number n, rest)

/-- The items up to the end of an array that has some. -/
def scanItems : Nat → List Char → Option (List Json × List Char)
  | 0, _ => none
  | fuel + 1, cs => do
    let (item, cs) ← scan fuel cs
    match skip cs with
    | ',' :: rest => (scanItems fuel rest).map fun (items, rest) => (item :: items, rest)
    | ']' :: rest => some ([item], rest)
    | _ => none

/-- The entries up to the end of an object that has some. -/
def scanEntries : Nat → List Char → Option (List (List Char × Json) × List Char)
  | 0, _ => none
  | fuel + 1, cs =>
    match skip cs with
    | '"' :: rest => do
      let (key, cs) ← scanString rest
      match skip cs with
      | ':' :: rest => do
        let (value, cs) ← scan fuel rest
        match skip cs with
        | ',' :: rest =>
          (scanEntries fuel rest).map fun (entries, rest) => ((key, value) :: entries, rest)
        | '\x7d' :: rest => some ([(key, value)], rest)
        | _ => none
      | _ => none
    | _ => none

end

/-- The document that a text consists of. -/
def parse? (s : String) : Option Json := do
  let cs := s.toList
  let (j, rest) ← scan (cs.length + 1) cs
  if skip rest = [] then some j else none

end RecordGraph.Json
