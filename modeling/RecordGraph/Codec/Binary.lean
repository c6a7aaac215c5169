import RecordGraph.Text.Utf8

/-!
# Compact binary content

Integers take one byte below 251, else a mark and two, four or eight bytes, the least significant
first; signed ones are folded so that small magnitudes stay short. Texts and lists stand behind
their length, optional content behind a byte 0 or 1, and an alternative behind its number.

A `Decoder` reads content from the front of a byte string and leaves the rest. Longer forms than
necessary are read too.
-/
namespace RecordGraph.Binary

/-- The content at the front of a byte string, and the rest of it. -/
abbrev Decoder (α : Type) := StateT (List UInt8) Option α

/-! ## Bytes and fixed widths -/

def takeByte : Decoder UInt8 := fun
  | [] => none
  | b :: rest => some (b, rest)

/-- Exactly `n` bytes. -/
def takeBytes (n : Nat) : Decoder (List UInt8) := fun bytes =>
  if n ≤ bytes.length then some (bytes.take n, bytes.drop n) else none

/-- `width` bytes of a number, the least significant first. -/
def littleEndian (width n : Nat) : List UInt8 :=
  (List.range width).map fun i => UInt8.ofNat (n / Nat.pow 256 i % 256)

/-- The number that bytes spell, the least significant first. -/
def ofLittleEndian : List UInt8 → Nat
  | [] => 0
  | b :: rest => b.toNat + 256 * ofLittleEndian rest

def takeFixed (width : Nat) : Decoder Nat := do
  return ofLittleEndian (← takeBytes width)

/-! ## Integers -/

/-- A number below `2 ^ 64`. -/
def natural (n : Nat) : List UInt8 :=
  if n < 251 then [UInt8.ofNat n]
  else if n < 0x10000 then 251 :: littleEndian 2 n
  else if n < 0x100000000 then 252 :: littleEndian 4 n
  else 253 :: littleEndian 8 n

/-- A number of at most 64 bits. -/
def takeNatural : Decoder Nat := do
  let b ← takeByte
  if b < 251 then return b.toNat
  else if b = 251 then takeFixed 2
  else if b = 252 then takeFixed 4
  else if b = 253 then takeFixed 8
  else failure

/-- A number of at most 32 bits; the eight byte form is refused. -/
def takeShort : Decoder Nat := do
  let b ← takeByte
  if b < 251 then return b.toNat
  else if b = 251 then takeFixed 2
  else if b = 252 then takeFixed 4
  else failure

/-- Signed numbers folded onto unsigned ones: 0, -1, 1, -2, 2, … -/
def fold (i : Int) : Nat := if 0 ≤ i then 2 * i.toNat else 2 * (-i).toNat - 1

def unfold (n : Nat) : Int := if n % 2 = 0 then n / 2 else -(n / 2 : Nat) - 1

def integer (i : Int64) : List UInt8 := natural (fold i.toInt)

def takeInteger : Decoder Int64 := do
  return Int64.ofInt (unfold (← takeNatural))

def word (u : UInt64) : List UInt8 := natural u.toNat

def takeWord : Decoder UInt64 := do
  return UInt64.ofNat (← takeNatural)

/-! ## Other content -/

def flag (b : Bool) : List UInt8 := [if b then 1 else 0]

def takeFlag : Decoder Bool := do
  let b ← takeByte
  if b = 0 then return false
  else if b = 1 then return true
  else failure

/-- Bytes behind their count. -/
def block (bytes : List UInt8) : List UInt8 := natural bytes.length ++ bytes

def takeBlock : Decoder (List UInt8) := do
  takeBytes (← takeNatural)

def text (s : String) : List UInt8 := block (Utf8.encode s)

def takeText : Decoder String := do
  match Utf8.decode (← takeBlock) with
  | .ok s => return s
  | .error _ => failure

def optional (f : α → List UInt8) : Option α → List UInt8
  | none => [0]
  | some a => 1 :: f a

def takeOptional (take : Decoder α) : Decoder (Option α) := do
  let present ← takeFlag
  if present then return some (← take) else return none

def list (f : α → List UInt8) (items : List α) : List UInt8 :=
  natural items.length ++ items.flatMap f

/-- `n` items in a row. -/
def takeItems (take : Decoder α) : Nat → Decoder (List α)
  | 0 => return []
  | n + 1 => do
    let a ← take
    return a :: (← takeItems take n)

def takeList (take : Decoder α) : Decoder (List α) := do
  takeItems take (← takeNatural)

/-- The number of an alternative among all of them. -/
def choice [DecidableEq α] (all : List α) (a : α) : List UInt8 := natural (all.idxOf a)

def takeChoice (all : List α) : Decoder α := do
  match all[← takeShort]? with
  | some a => return a
  | none => failure

end RecordGraph.Binary
