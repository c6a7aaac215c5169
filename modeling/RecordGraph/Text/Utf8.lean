/-!
# UTF-8

`Utf8.decode` reads bytes as UTF-8 text. Where they are not, `Utf8.Fault` says where the valid part
ends, and how many bytes make up the broken character; a character that the input only begins is
`incomplete`.
-/
namespace RecordGraph.Utf8

/-- Why bytes are no UTF-8 text. -/
inductive Fault where
  /-- The `length` bytes at `index` begin no character. -/
  | invalid (length index : Nat)
  /-- The input ends inside the character at `index`. -/
  | incomplete (index : Nat)
  deriving DecidableEq, Repr

def Fault.message : Fault → String
  | .invalid length index =>
    "invalid utf-8 sequence of " ++ toString length ++ " bytes from index " ++ toString index
  | .incomplete index => "incomplete utf-8 byte sequence from index " ++ toString index

/-- A byte that continues a character. -/
def isContinuation (b : UInt8) : Bool := 0x80 ≤ b && b < 0xc0

/-- The payload of a continuation byte. -/
def payload (b : UInt8) : Nat := b.toNat % 64

/-- The second byte that a three-byte character may have after `first`. -/
def secondOfThree (first second : UInt8) : Bool :=
  if first == 0xe0 then 0xa0 ≤ second && second < 0xc0
  else if first == 0xed then 0x80 ≤ second && second < 0xa0
  else isContinuation second

/-- The second byte that a four-byte character may have after `first`. -/
def secondOfFour (first second : UInt8) : Bool :=
  if first == 0xf0 then 0x90 ≤ second && second < 0xc0
  else if first == 0xf4 then 0x80 ≤ second && second < 0x90
  else isContinuation second

/-- The characters of the bytes that begin at `index`. -/
def decodeFrom (index : Nat) : List UInt8 → Except Fault (List Char)
  | [] => .ok []
  | a :: rest =>
    if a < 0x80 then (decodeFrom (index + 1) rest).map (Char.ofNat a.toNat :: ·)
    else if 0xc2 ≤ a && a < 0xe0 then
      match rest with
      | [] => .error (.incomplete index)
      | b :: rest =>
        if !isContinuation b then .error (.invalid 1 index)
        else (decodeFrom (index + 2) rest).map (Char.ofNat (a.toNat % 32 * 64 + payload b) :: ·)
    else if 0xe0 ≤ a && a < 0xf0 then
      match rest with
      | [] => .error (.incomplete index)
      | b :: rest =>
        if !secondOfThree a b then .error (.invalid 1 index)
        else match rest with
          | [] => .error (.incomplete index)
          | c :: rest =>
            if !isContinuation c then .error (.invalid 2 index)
            else (decodeFrom (index + 3) rest).map
              (Char.ofNat (a.toNat % 16 * 4096 + payload b * 64 + payload c) :: ·)
    else if 0xf0 ≤ a && a < 0xf5 then
      match rest with
      | [] => .error (.incomplete index)
      | b :: rest =>
        if !secondOfFour a b then .error (.invalid 1 index)
        else match rest with
          | [] => .error (.incomplete index)
          | c :: rest =>
            if !isContinuation c then .error (.invalid 2 index)
            else match rest with
              | [] => .error (.incomplete index)
              | d :: rest =>
                if !isContinuation d then .error (.invalid 3 index)
                else (decodeFrom (index + 4) rest).map
                  (Char.ofNat
                    (a.toNat % 8 * 262144 + payload b * 4096 + payload c * 64 + payload d) :: ·)
    else .error (.invalid 1 index)

/-- The text that bytes spell. -/
def decode (bytes : List UInt8) : Except Fault String :=
  (decodeFrom 0 bytes).map String.ofList

/-- The bytes of a text. -/
def encode (s : String) : List UInt8 := s.toUTF8.toList

end RecordGraph.Utf8
