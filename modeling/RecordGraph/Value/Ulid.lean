/-!
# ULIDs

A ULID is a 128 bit number in 26 digits of Crockford's base 32, the most significant first. The
digits hold 130 bits, so the first one is at most `7`.
-/
namespace RecordGraph.Ulid

/-- The 32 digits in ascending order. -/
def alphabet : List Char := "0123456789ABCDEFGHJKMNPQRSTVWXYZ".toList

/-- The digit of a number below 32. -/
def digit (n : Nat) : Char := alphabet.getD n '0'

/-- The 26 digits of a number. -/
def encode (n : BitVec 128) : String :=
  String.ofList ((List.range 26).map fun i => digit (n.toNat / Nat.pow 32 (25 - i) % 32))

/-- A ULID in either case. -/
def isUlid (s : String) : Bool :=
  let cs := s.toList
  cs.length == 26 && (cs.head?.map (decide <| · ≤ '7')).getD false
    && cs.all fun c => alphabet.contains c.toUpper

/-- The upper-case form. -/
def canonical (s : String) : String := String.ofList (s.toList.map Char.toUpper)

end RecordGraph.Ulid
