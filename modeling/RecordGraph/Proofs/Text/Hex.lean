import RecordGraph.Text.Hex

/-!
# Hexadecimal digits, written and read

`Hex.decode_encode`: the digits of bytes spell these bytes.
-/
namespace RecordGraph.Hex

theorem value_digit : ∀ n < 16, value? (digit n) = some n := by decide

theorem decode_ofByte (b : UInt8) (rest : List Char) :
    decode? (ofByte b ++ rest) = (decode? rest).map (b :: ·) := by
  have hb := b.toNat_lt
  have hbyte : b.toNat / 16 * 16 + b.toNat % 16 = b.toNat := Nat.div_add_mod' _ _
  simp only [ofByte, List.cons_append, List.nil_append, decode?, Option.bind_eq_bind,
    value_digit (b.toNat / 16) (by omega), value_digit (b.toNat % 16) (by omega),
    Option.bind_some, hbyte, UInt8.ofNat_toNat]
  cases decode? rest <;> rfl

/-- The digits of bytes spell these bytes. -/
theorem decode_encode (bytes : List UInt8) : decode? (encode bytes) = some bytes := by
  induction bytes with
  | nil => rfl
  | cons b bytes ih =>
    rw [encode, List.flatMap_cons, decode_ofByte, ← encode, ih, Option.map_some]

end RecordGraph.Hex
