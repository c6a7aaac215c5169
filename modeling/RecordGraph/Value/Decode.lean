import RecordGraph.Error
import RecordGraph.Number.Literal
import RecordGraph.Text.Blank
import RecordGraph.Time.Read
import RecordGraph.Value.Ulid

/-!
# Raw values into receivers

`Receiver.decode` turns a raw database value into what a column's receiver promises, or says why it
cannot. Null stays null whatever the receiver: nullability is the database's business.
-/
namespace RecordGraph

namespace Receiver

/-- The nearest signed 64 bit integer. -/
def clampSigned (i : Int) : Int := max (-0x8000000000000000) (min i 0x7fffffffffffffff)

/-- The nearest unsigned 64 bit integer. -/
def clampUnsigned (i : Int) : Nat := (max 0 (min i 0xffffffffffffffff)).toNat

def decodeString : Value → Except DecodeFault Value
  | .text s => .ok (.text s)
  | .bytes b => match Utf8.decode b with
    | .ok s => .ok (.text s)
    | .error fault => .error (.notUtf8 fault)
  | other => .ok (.text other.shown)

/-- The signed integer that a raw value stands for. -/
def signed? : Value → Except DecodeFault Int
  | .int i => .ok i.toInt
  | .uint u => if u.toNat < 0x8000000000000000 then .ok u.toNat else .error .tooLarge
  | .bool b => .ok (if b then 1 else 0)
  | .float x => match x.toInt? with
    | some i => .ok (clampSigned i)
    | none => .error (.unexpected (.float x))
  | .text s => match Literal.readInt64? (Text.trim s) with
    | some i => .ok i.toInt
    | none => .error (.notInteger s)
  | other => .error (.unexpected other)

/-- One more than the greatest number of so many bits. -/
def bound (bits : Nat) : Nat := Nat.pow 2 bits

def decodeSigned (bits : Nat) (raw : Value) : Except DecodeFault Value := do
  let i ← signed? raw
  if bits < 64 ∧ (i < -(bound (bits - 1) : Int) ∨ bound (bits - 1) ≤ i) then
    .error (.tooWide i bits)
  else .ok (.int (Int64.ofInt i))

/-- The unsigned integer that a raw value stands for. -/
def unsigned? : Value → Except DecodeFault Nat
  | .uint u => .ok u.toNat
  | .int i => if 0 ≤ i.toInt then .ok i.toInt.toNat else .error .tooSmall
  | .bool b => .ok (if b then 1 else 0)
  | .float x => match x.isNonneg, x.toInt? with
    | true, some i => .ok (clampUnsigned i)
    | _, _ => .error (.unexpected (.float x))
  | .text s => match Literal.readUInt64? (Text.trim s) with
    | some u => .ok u.toNat
    | none => .error (.notUnsigned s)
  | other => .error (.unexpected other)

def decodeUnsigned (bits : Nat) (raw : Value) : Except DecodeFault Value := do
  let n ← unsigned? raw
  if bits < 64 ∧ bound bits ≤ n then .error (.tooWide n bits)
  else .ok (.uint (UInt64.ofNat n))

def float? : Value → Except DecodeFault Binary64
  | .float x => .ok x
  | .int i => .ok (Binary64.ofInt i.toInt)
  | .uint u => .ok (Binary64.ofNat u.toNat)
  | .text s => match Literal.readDouble? (Text.trim s) with
    | some x => .ok x
    | none => .error (.notNumber s)
  | other => .error (.unexpected other)

def trueWords : List String := ["1", "t", "true", "y", "yes"]

def falseWords : List String := ["0", "f", "false", "n", "no"]

def decodeBool : Value → Except DecodeFault Value
  | .bool b => .ok (.bool b)
  | .int i => .ok (.bool (i != 0))
  | .uint u => .ok (.bool (u != 0))
  | .text s =>
    let word := String.ofList (Literal.lower s.toList)
    if trueWords.contains word then .ok (.bool true)
    else if falseWords.contains word then .ok (.bool false)
    else .error (.notBoolean s)
  | other => .error (.unexpected other)

def decodeTime : Value → Except DecodeFault Value
  | .time t => .ok (.time t)
  | .text s => match Time.parse? s with
    | some t => .ok (.time t)
    | none => .error (.notTimestamp s)
  | .int i => match Time.ofSeconds? i.toInt with
    | some t => .ok (.time t)
    | none => .error (.secondsOutOfRange i)
  | other => .error (.unexpected other)

def decodeUuid : Value → Except DecodeFault Value
  | .uuid u => .ok (.uuid u)
  | .text s => match Uuid.parse? s with
    | some u => .ok (.uuid u)
    | none => .error .notUuid
  | .bytes b => match Uuid.ofBytes? b with
    | some u => .ok (.uuid u)
    | none => .error .notUuid
  | other => .error (.unexpected other)

def decodeUlid (raw : Value) : Except DecodeFault Value :=
  match raw with
  | .text s =>
    if Ulid.isUlid s then .ok (.text (Ulid.canonical s)) else .error (.notUlid raw)
  | .bytes b => match Uuid.ofBytes? b with
    | some u => .ok (.text (Ulid.encode u.bits))
    | none => .error (.notUlid raw)
  | other => .error (.notUlid other)

def decodeBytes : Value → Except DecodeFault Value
  | .bytes b => .ok (.bytes b)
  | .text s => .ok (.bytes (Utf8.encode s))
  | other => .error (.unexpected other)

/-- A raw value that is not null. -/
def decodePresent : Receiver → Value → Except DecodeFault Value
  | .string, raw => decodeString raw
  | .int8, raw => decodeSigned 8 raw
  | .int16, raw => decodeSigned 16 raw
  | .int32, raw => decodeSigned 32 raw
  | .int64, raw => decodeSigned 64 raw
  | .autoPrimaryKey, raw => decodeSigned 64 raw
  | .uint8, raw => decodeUnsigned 8 raw
  | .uint16, raw => decodeUnsigned 16 raw
  | .uint32, raw => decodeUnsigned 32 raw
  | .uint64, raw => decodeUnsigned 64 raw
  | .float32, raw => (float? raw).map fun x => .float x.narrow
  | .float64, raw => (float? raw).map .float
  | .bool, raw => decodeBool raw
  | .time, raw => decodeTime raw
  | .uuid, raw => decodeUuid raw
  | .ulid, raw => decodeUlid raw
  | .bytes, raw => decodeBytes raw

/-- A raw value in the form its receiver promises. -/
def decode (receiver : Receiver) (column : String) (raw : Value) : Except Error Value :=
  if raw.isNull then .ok .null
  else match receiver.decodePresent raw with
    | .ok v => .ok v
    | .error fault => .error (.decode column receiver fault)

end Receiver

end RecordGraph
