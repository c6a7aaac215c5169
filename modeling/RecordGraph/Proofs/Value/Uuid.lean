import RecordGraph.Proofs.Codec.Binary
import RecordGraph.Proofs.Text.Hex
import RecordGraph.Value.Uuid

/-!
# UUIDs, their bytes and their text

`Uuid.ofBytes_bytes`: the sixteen bytes of an identifier name it; they are the bytes of its number,
the most significant first. `Uuid.parse_text`: so does its text.
-/
namespace RecordGraph.Uuid

open Binary

theorem bytes_eq (u : Uuid) : u.bytes = (littleEndian 16 u.bits.toNat).reverse := by
  rw [bytes, littleEndian, ← List.map_reverse]
  rfl

@[simp] theorem length_bytes (u : Uuid) : u.bytes.length = 16 := by
  rw [bytes_eq, List.length_reverse, length_littleEndian]

theorem bigEndian_reverse (bytes : List UInt8) :
    bigEndian bytes.reverse = ofLittleEndian bytes := by
  rw [bigEndian, List.foldl_reverse]
  induction bytes with
  | nil => rfl
  | cons b bytes ih => rw [List.foldr_cons, ih, ofLittleEndian, Nat.mul_comm, Nat.add_comm]

/-- The bytes of an identifier name it. -/
theorem ofBytes_bytes (u : Uuid) : ofBytes? u.bytes = some u := by
  have hbits : u.bits.toNat < 256 ^ 16 := u.bits.isLt
  rw [ofBytes?, if_pos u.length_bytes, bytes_eq, bigEndian_reverse, ofLittleEndian_littleEndian,
    Nat.mod_eq_of_lt hbits, BitVec.ofNat_toNat, BitVec.setWidth_eq]

/-- Five groups of digits, with hyphens between them, are the digits of all bytes. -/
theorem ungroup_groups (b₀ b₁ b₂ b₃ b₄ b₅ b₆ b₇ b₈ b₉ b₁₀ b₁₁ b₁₂ b₁₃ b₁₄ b₁₅ : UInt8) :
    ungroup? (Hex.encode [b₀, b₁, b₂, b₃] ++ '-' :: Hex.encode [b₄, b₅]
        ++ '-' :: Hex.encode [b₆, b₇] ++ '-' :: Hex.encode [b₈, b₉]
        ++ '-' :: Hex.encode [b₁₀, b₁₁, b₁₂, b₁₃, b₁₄, b₁₅]) =
      some (Hex.encode [b₀, b₁, b₂, b₃, b₄, b₅, b₆, b₇, b₈, b₉, b₁₀, b₁₁, b₁₂, b₁₃, b₁₄, b₁₅]) :=
  rfl

/-- The text of an identifier names it. -/
theorem parse_text (u : Uuid) : parse? u.text = some u := by
  have hlength := u.length_bytes
  have hdigits : ofDigits? (Hex.encode u.bytes) = some u := by
    rw [ofDigits?, Hex.decode_encode, Option.bind_some, ofBytes_bytes]
  have hgroups : u.text.toList.length = 36 ∧
      ungroup? u.text.toList = some (Hex.encode u.bytes) := by
    rw [text, String.toList_ofList]
    match u.bytes, hlength with
    | [_, _, _, _, _, _, _, _, _, _, _, _, _, _, _, _], _ => exact ⟨rfl, ungroup_groups ..⟩
  simp only [parse?, hgroups.1, hgroups.2, Option.bind_some, hdigits]
  rfl

end RecordGraph.Uuid
