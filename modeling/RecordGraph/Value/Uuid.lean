import RecordGraph.Text.Hex

/-!
# UUIDs

128 bits, written as 32 lower-case hexadecimal digits in five groups. Read forms are the groups,
the digits alone, the groups in braces and the groups behind `urn:uuid:` in letters of any case.
-/
namespace RecordGraph

/-- A 128 bit identifier. -/
structure Uuid where
  bits : BitVec 128
  deriving DecidableEq, Inhabited, Repr

namespace Uuid

/-- The sixteen bytes, the most significant first. -/
def bytes (u : Uuid) : List UInt8 :=
  (List.range 16).map fun i => UInt8.ofNat (u.bits.toNat / Nat.pow 256 (15 - i) % 256)

/-- The number that bytes spell, the most significant first. -/
def bigEndian (bytes : List UInt8) : Nat := bytes.foldl (fun n b => n * 256 + b.toNat) 0

/-- An identifier from exactly sixteen bytes. -/
def ofBytes? (bytes : List UInt8) : Option Uuid :=
  if bytes.length = 16 then some ⟨BitVec.ofNat 128 (bigEndian bytes)⟩ else none

/-- The five groups of digits. -/
def text (u : Uuid) : String :=
  let group (start n : Nat) : List Char := Hex.encode ((u.bytes.drop start).take n)
  String.ofList
    (group 0 4 ++ '-' :: group 4 2 ++ '-' :: group 6 2 ++ '-' :: group 8 2 ++ '-' :: group 10 6)

/-- The digits of the five groups, if the hyphens stand where they belong. -/
def ungroup? (cs : List Char) : Option (List Char) :=
  if cs.length = 36 ∧ [8, 13, 18, 23].all (fun i => cs[i]? == some '-') then
    some (cs.take 8 ++ (cs.drop 9).take 4 ++ (cs.drop 14).take 4 ++ (cs.drop 19).take 4
      ++ cs.drop 24)
  else none

def ofDigits? (cs : List Char) : Option Uuid := (Hex.decode? cs).bind ofBytes?

/-- The identifier that a text names in one of the read forms. -/
def parse? (s : String) : Option Uuid :=
  let cs := s.toList
  let braced :=
    if cs.head? = some '\x7b' ∧ cs.getLast? = some '\x7d' then cs.tail.dropLast else []
  let urn := if (cs.take 9).map Char.toLower = "urn:uuid:".toList then cs.drop 9 else []
  if cs.length = 32 then ofDigits? cs
  else if cs.length = 36 then (ungroup? cs).bind ofDigits?
  else if cs.length = 38 then (ungroup? braced).bind ofDigits?
  else if cs.length = 45 then (ungroup? urn).bind ofDigits?
  else none

end Uuid

end RecordGraph
