import RecordGraph.Proofs.Time.Stored
import RecordGraph.Proofs.Value.Decode
import RecordGraph.Proofs.Value.Uuid
import RecordGraph.Sqlite.Affinity

/-!
# Values in cells

A cell has five storage classes for all kinds of values: truth values become integers, times and
UUIDs texts, and an unsigned number beyond the signed range becomes its digits. The receiver of the
column makes the value out of it again, save for what is below the microsecond of a time.

**Results.**
* `Receiver.decodePresent_ofValue`: a value of a receiver's range is read back from its cell.
* `Receiver.key?_eq_of_ofValue_eq`: values with one cell have one key.
* `Affinity.keep_ofReceiver`: a column declared for a receiver leaves the cells as they are, those
  of doubles and of the greatest unsigned numbers apart.
* `Receiver.decode_stored`: what is read back of a decoded value, and its key.
-/
namespace RecordGraph

open Sqlite

/-! ## What a cell can hold -/

/-- A cell has no NaN, and a text for a time has four digits for the year. -/
def Value.Storable : Value → Prop
  | .float x => x.isNaN = false
  | .time t => t.FourDigit
  | _ => True

/-- A value without what is below the microsecond of a time. -/
def Value.truncated : Value → Value
  | .time t => .time t.truncated
  | v => v

/-- What is read back of a value. -/
def Value.asRead : Value → Value
  | .time t => .time t.asRead
  | v => v

/-- The key counts in microseconds, so nothing of it is lost. -/
@[simp] theorem Value.key?_asRead (v : Value) : v.asRead.key? = v.key? := by
  cases v with
  | time t => exact congrArg (fun micros => some (Key.time micros)) (Time.micros_asRead t)
  | null | bool _ | int _ | uint _ | float _ | text _ | bytes _ | uuid _ => rfl

/-! ## Digits of an unsigned number -/

/-- Nothing is taken from a text without white space. -/
theorem Text.trim_eq_self {s : String} (h : ∀ c ∈ s.toList, isBlank c = false) : trim s = s := by
  have hstart : ∀ cs : List Char, (∀ c ∈ cs, isBlank c = false) → trimStart cs = cs := by
    intro cs hcs
    cases cs with
    | nil => rfl
    | cons c cs => exact Time.trimStart_cons (hcs c List.mem_cons_self) cs
  rw [trim, hstart _ h, hstart _ fun c hc => h c (List.mem_reverse.1 hc), List.reverse_reverse,
    String.ofList_toList]

theorem toList_toString (n : Nat) : (toString n).toList = Nat.toDigits 10 n := by
  rw [Nat.toString_eq_repr, Nat.repr_eq_ofList_toDigits, String.toList_ofList]

/-- An unsigned number is read from its digits. -/
theorem Literal.readUInt64?_toString (u : UInt64) :
    readUInt64? (Text.trim (toString u.toNat)) = some u := by
  have hdigit : ∀ c ∈ (toString u.toNat).toList, isDigit c = true := by
    rw [toList_toString]
    exact fun _ => isDigit_of_mem_toDigits
  have hplus : ∀ cs, (toString u.toNat).toList ≠ '+' :: cs := by
    intro cs hcs
    exact absurd (hdigit '+' (hcs ▸ List.mem_cons_self)) (by decide)
  have hword : u.toNat < 0x10000000000000000 := u.toNat_lt
  rw [Text.trim_eq_self fun c hc => Time.not_isBlank_of_isDigit (hdigit c hc), readUInt64?]
  split
  · exact absurd ‹_› (hplus _)
  · rw [toList_toString, readNat?_toDigits, Option.bind_some, Width.unsigned?, if_pos hword,
      UInt64.ofNat_toNat]

/-! ## Cells -/

namespace Sqlite.Stored

/-- The cell of an unsigned number depends on whether it fits a signed one. -/
theorem ofValue_uint {u : UInt64} {fit : Option Int64} (h : Value.ofUnsigned? u = fit) :
    ofValue (.uint u) = fit.elim (.text (toString u.toNat)) .integer := by
  -- The test is made a variable, or the kernel would count down from 2 ^ 63 to compute it.
  obtain ⟨fits, hfits⟩ : ∃ fits, fits = Value.ofUnsigned? := ⟨_, rfl⟩
  rw [ofValue.eq_def]
  rw [← hfits] at h ⊢
  subst h
  dsimp only
  cases fits u <;> rfl

theorem ofValue_of_lt {u : UInt64} (h : u.toNat < 2 ^ 63) :
    ofValue (.uint u) = .integer (Int64.ofInt u.toNat) := by
  have hfit : Value.ofUnsigned? u = some (Int64.ofInt u.toNat) := by
    rw [Value.ofUnsigned?, Width.signed?, if_pos ⟨by omega, by omega⟩]
  exact ofValue_uint hfit

theorem ofValue_of_le {u : UInt64} (h : 2 ^ 63 ≤ u.toNat) :
    ofValue (.uint u) = .text (toString u.toNat) := by
  have hfit : Value.ofUnsigned? u = none := by
    rw [Value.ofUnsigned?, Width.signed?, if_neg (by omega)]
  exact ofValue_uint hfit

theorem ofValue_float {x : Binary64} (h : x.isNaN = false) : ofValue (.float x) = .real x :=
  if_neg (Bool.eq_false_iff.1 h)

/-- Only null has an empty cell. -/
theorem value_ofValue_ne_null {v : Value} (hv : v ≠ .null) (hs : v.Storable) :
    (ofValue v).value ≠ .null := by
  cases v with
  | null => exact absurd rfl hv
  | uint u =>
    rcases Nat.lt_or_ge u.toNat (2 ^ 63) with hu | hu
    · rw [ofValue_of_lt hu]
      nofun
    · rw [ofValue_of_le hu]
      nofun
  | float x =>
    rw [ofValue_float hs]
    nofun
  | bool _ | int _ | text _ | bytes _ | time _ | uuid _ => nofun

end Sqlite.Stored

namespace Receiver

theorem unsigned?_int {i : Int64} {n : Nat} (h : i.toInt = n) : unsigned? (.int i) = .ok n := by
  rw [unsigned?, if_pos (by omega), h, Int.toNat_natCast]

theorem unsigned?_text {s : String} {u : UInt64} (h : Literal.readUInt64? (Text.trim s) = some u) :
    unsigned? (.text s) = .ok u.toNat := by
  simp only [unsigned?, h]

/-- The integer or the digits in the cell are the number. -/
theorem unsigned?_ofValue (u : UInt64) :
    unsigned? (Stored.ofValue (.uint u)).value = .ok u.toNat := by
  rcases Nat.lt_or_ge u.toNat (2 ^ 63) with hu | hu
  · rw [Stored.ofValue_of_lt hu]
    exact unsigned?_int (Int64.toInt_ofInt_of_le (by omega) (by omega))
  · rw [Stored.ofValue_of_le hu]
    exact unsigned?_text (Literal.readUInt64?_toString u)

theorem decodeUnsigned_ofValue {bits : Nat} {v : Value} (hbits : bits ≤ 64)
    (h : IsUnsigned bits v) : decodeUnsigned bits (Stored.ofValue v).value = .ok v := by
  obtain ⟨n, hn, hrest⟩ := decodeUnsigned_eq_ok_iff.1 ((decodeUnsigned_settlesOn hbits).fixed h)
  obtain ⟨u, rfl, -⟩ := h
  cases hn
  exact decodeUnsigned_eq_ok_iff.2 ⟨_, unsigned?_ofValue u, hrest⟩

/-- A value of the receiver's range is read back from its cell. -/
theorem decodePresent_ofValue {receiver : Receiver} (hr : receiver ≠ .float32) {v : Value}
    (h : receiver.Holds v) (hs : v.Storable) :
    receiver.decodePresent (Stored.ofValue v).value = .ok v.asRead := by
  cases receiver with
  | string | bytes =>
    obtain ⟨_, rfl⟩ := h
    rfl
  | int8 | int16 | int32 | int64 | autoPrimaryKey =>
    have hfixed := (decodePresent_settlesOn hr).fixed h
    obtain ⟨i, rfl, -⟩ := h
    exact hfixed
  | uint8 | uint16 | uint32 | uint64 =>
    have hread := decodeUnsigned_ofValue (by decide) h
    obtain ⟨u, rfl, -⟩ := h
    exact hread
  | float32 => exact absurd rfl hr
  | float64 =>
    obtain ⟨x, rfl⟩ := h
    rw [Stored.ofValue_float hs]
    rfl
  | ulid =>
    have hfixed := (decodePresent_settlesOn hr).fixed h
    obtain ⟨s, rfl, -⟩ := h
    have hcell : (Stored.ofValue (.text s)).value = .text s := rfl
    rw [hcell, hfixed]
    rfl
  | time =>
    obtain ⟨t, rfl⟩ := h
    have hcell : (Stored.ofValue (.time t)).value = .text t.stored := rfl
    simp only [hcell, decodePresent, decodeTime, Time.parse_stored hs, Value.asRead]
  | bool =>
    obtain ⟨b, rfl⟩ := h
    cases b <;> rfl
  | uuid =>
    obtain ⟨u, rfl⟩ := h
    have hcell : (Stored.ofValue (.uuid u)).value = .text u.text := rfl
    simp only [hcell, decodePresent, decodeUuid, Uuid.parse_text, Value.asRead]

/-- What is decoded from the cell of a value that decoding leaves as it is. -/
theorem decode_ofValue {receiver : Receiver} (hr : receiver ≠ .float32) {column : String}
    {v : Value} (h : receiver.decode column v = .ok v) (hs : v.Storable) :
    receiver.decode column (Stored.ofValue v).value = .ok v.asRead := by
  rcases (decode_self_iff hr).1 h with rfl | hholds
  · rfl
  · exact decode_eq_ok_iff.2
      (.inr ⟨Stored.value_ofValue_ne_null hholds.ne_null hs, decodePresent_ofValue hr hholds hs⟩)

/-- Values with one cell have one key. -/
theorem key?_eq_of_ofValue_eq {receiver : Receiver} (hr : receiver ≠ .float32) {column : String}
    {v w : Value} (hv : receiver.decode column v = .ok v) (hw : receiver.decode column w = .ok w)
    (hsv : v.Storable) (hsw : w.Storable) (h : Stored.ofValue v = Stored.ofValue w) :
    v.key? = w.key? := by
  have hread := decode_ofValue hr hv hsv
  rw [h, decode_ofValue hr hw hsw] at hread
  rw [← Value.key?_asRead v, ← Value.key?_asRead w, Except.ok.inj hread]

end Receiver

/-! ## Columns -/

/-- A column declared for a receiver leaves the cells as they are, those of doubles and of the
greatest unsigned numbers apart. -/
theorem Sqlite.Affinity.keep_ofReceiver {receiver : Receiver} {v : Value} (h : receiver.Holds v)
    (hfloat : ∀ x, v ≠ .float x) (huint : ∀ u, v = .uint u → u.toNat < 2 ^ 63) :
    (Affinity.ofReceiver receiver).keep (Stored.ofValue v) = Stored.ofValue v := by
  cases receiver with
  | string | time | uuid | bytes | bool =>
    obtain ⟨_, rfl⟩ := h
    rfl
  | ulid | int8 | int16 | int32 | int64 | autoPrimaryKey =>
    obtain ⟨_, rfl, -⟩ := h
    rfl
  | uint8 | uint16 | uint32 | uint64 =>
    obtain ⟨u, rfl, -⟩ := h
    rw [Stored.ofValue_of_lt (huint u rfl)]
    rfl
  | float32 | float64 =>
    obtain ⟨x, rfl⟩ := h
    exact absurd rfl (hfloat x)

end RecordGraph
